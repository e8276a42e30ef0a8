import RubyMachine.Proofs.Class.Slots
import RubyMachine.Proofs.Machine.Logic
import RubyMachine.Proofs.Scope.Escape

/-! Singleton classes, which are made on demand. A class object without one is sent the methods of Class, whatever its
superclasses have; from the moment it has one, it is sent what the nearest singleton class of its superclasses holds.
Making one thus gives the methods of that class to every class that gets a singleton class by it, and changes nothing else
(`singletonClass_dispatches`). -/

namespace RubyMachine

namespace ClassTable

variable {t t' t'' : ClassTable} {c d e s u : Nat}

/-- The class whose methods a class object is sent when it has a singleton class: its own, or for want of that what a new
one would be made under. -/
def metaclass (t : ClassTable) (id : Nat) : Nat :=
  match (t.entry id).singleton with
  | some s => s
  | none =>
    if (t.entry id).isModule then module
    else match (t.entry id).super with
      | some u => if u < id then t.metaclass u else cls
      | none => cls
termination_by id

/-- What a singleton class is made under. -/
def above (t : ClassTable) (id : Nat) : Nat :=
  if (t.entry id).isModule then module
  else match (t.entry id).super with
    | some u => if u < id then t.metaclass u else cls
    | none => cls

theorem metaclass_of_some (h : (t.entry c).singleton = some s) : t.metaclass c = s := by rw [metaclass, h]

theorem metaclass_of_none (h : (t.entry c).singleton = none) : t.metaclass c = t.above c := by
  rw [metaclass, h]
  rfl

/-- The superclass has a singleton class. -/
def Prepared (t : ClassTable) (id : Nat) : Prop :=
  (t.entry id).isModule = false → ∀ u < id, (t.entry id).super = some u → ∃ s, (t.entry u).singleton = some s

/-- Singleton classes stand under one another as their classes do. -/
structure Linked (t : ClassTable) : Prop where
  prepared : ∀ c s, (t.entry c).singleton = some s → t.Prepared c
  below : ∀ c s, (t.entry c).singleton = some s → t.above c < s ∧ s < t.size
  super : ∀ c s, (t.entry c).singleton = some s → (t.entry s).super = some (t.above c)

theorem Linked.classOf_lt (h : t.Linked) (hfixed : cls < t.size) (c : Nat) : t.classOf c < t.size := by
  rw [classOf]
  split
  · exact (h.below _ _ ‹_›).2
  · split
    · exact lt_trans (by decide) hfixed
    · exact hfixed

/-- Classes were added that have no methods yet, and some of the others were given one of them as singleton class. -/
structure Adds (t t' : ClassTable) : Prop where
  size : t.size ≤ t'.size
  old : ∀ e < t.size, t'.entry e = { t.entry e with singleton := (t'.entry e).singleton }
  kept : ∀ e s, (t.entry e).singleton = some s → (t'.entry e).singleton = some s
  fresh : ∀ e s, e < t.size → (t.entry e).singleton = none → (t'.entry e).singleton = some s → t.size ≤ s
  bare : ∀ e, t.size ≤ e → (t'.entry e).methods = [] ∧ (t'.entry e).includes = []

namespace Adds

theorem refl (t : ClassTable) : t.Adds t where
  size := le_rfl
  old _ _ := rfl
  kept _ _ h := h
  fresh e s _ h h' := by
    rw [h] at h'
    cases h'
  bare e he := by
    rw [entry_of_le he]
    exact ⟨rfl, rfl⟩

theorem trans (h : t.Adds t') (h' : t'.Adds t'') : t.Adds t'' where
  size := h.size.trans h'.size
  old e he := by rw [h'.old e (he.trans_le h.size), h.old e he]
  kept e s hs := h'.kept e s (h.kept e s hs)
  fresh e s he hn hs := by
    cases hs' : (t'.entry e).singleton with
    | some s' =>
      have := h.fresh e s' he hn hs'
      cases (h'.kept e s' hs').symm.trans hs
      exact this
    | none => exact h.size.trans (h'.fresh e s (he.trans_le h.size) hs' hs)
  bare e he := by
    rcases Nat.lt_or_ge e t'.size with hlt | hge
    · rw [h'.old e hlt]
      exact h.bare e he
    · exact h'.bare e hge

/-- Methods are found as before in the classes that were there. -/
theorem findMethod? (h : t.Adds t') (hc : c < t.size) (name : Ident) : t'.findMethod? c name = t.findMethod? c name := by
  have hchain : t'.chain c = t.chain c := chain_grown h.size (fun e he => by rw [h.old e he]) hc
  have hincludes : ∀ e ∈ t.chain c, e :: (t'.entry e).includes.reverse = e :: (t.entry e).includes.reverse := by
    intro e he
    obtain ⟨-, -, -, hle⟩ := chain_split he
    rw [h.old e (hle.trans_lt hc)]
  have hmethods (e : Nat) : (t'.entry e).methods = (t.entry e).methods := by
    rcases Nat.lt_or_ge e t.size with hlt | hge
    · rw [h.old e hlt]
    · rw [(h.bare e hge).1, entry_of_le hge]
      rfl
  rw [ClassTable.findMethod?, ClassTable.findMethod?, ancestors, ancestors, hchain, List.flatMap_congr hincludes]
  simp only [hmethods]

/-- What a singleton class is under stays what it is. -/
theorem above (h : t.Adds t') (hc : c < t.size) (hp : t.Prepared c) : t'.above c = t.above c := by
  rw [ClassTable.above, ClassTable.above, h.old c hc]
  dsimp only
  split
  · rfl
  · rename_i hm
    split
    · rename_i u hu
      split
      · rename_i hlt
        obtain ⟨s, hs⟩ := hp (Bool.eq_false_of_not_eq_true hm) u hlt hu
        rw [metaclass_of_some hs, metaclass_of_some (h.kept u s hs)]
      · rfl
    · rfl

theorem prepared (h : t.Adds t') (hc : c < t.size) (hp : t.Prepared c) : t'.Prepared c := by
  intro hm u hu hs
  rw [h.old c hc] at hm hs
  obtain ⟨s, hs⟩ := hp hm u hu hs
  exact ⟨s, h.kept u s hs⟩

/-- A class that has no methods of its own finds those of its superclass. -/
theorem findMethod?_bare (h : t.Adds t') (hs : t.size ≤ s) (hlt : s < t'.size) (hsuper : (t'.entry s).super = some u)
    (hu : u < s) (name : Ident) : t'.findMethod? s name = t'.findMethod? u name := by
  obtain ⟨hmethods, hincludes⟩ := h.bare s hs
  rw [ClassTable.findMethod?, ancestors, chain, if_neg (Nat.not_le.2 hlt), hsuper]
  dsimp only
  rw [if_pos hu, List.flatMap_cons, hincludes]
  simp only [List.reverse_nil, List.cons_append, List.nil_append, List.findSome?_cons, hmethods, List.lookup_nil]
  rfl

/-- A class object that was given a singleton class is sent what the nearest one of its superclasses held. -/
theorem findMethod?_given (h : t.Adds t') (hl : t.Linked) (hl' : t'.Linked) (hfixed : cls < t.size) (hc : c < t.size)
    (hn : (t.entry c).singleton = none) (hs : (t'.entry c).singleton = some s) (name : Ident) :
    t'.findMethod? s name = t.findMethod? (t.metaclass c) name := by
  induction c using Nat.strong_induction_on generalizing s with
  | _ c ih =>
    have hmodule : module < t.size := lt_trans (by decide) hfixed
    obtain ⟨hab, hlt⟩ := hl'.below c s hs
    rw [h.findMethod?_bare (h.fresh c s hc hn hs) hlt (hl'.super c s hs) hab, metaclass_of_none hn]
    have hprep := hl'.prepared c s hs
    unfold Prepared at hprep
    rw [ClassTable.above, ClassTable.above]
    rw [h.old c hc] at hprep ⊢
    dsimp only at hprep ⊢
    by_cases hm : (t.entry c).isModule = true
    · rw [if_pos hm, if_pos hm, h.findMethod? hmodule]
    rw [if_neg hm, if_neg hm]
    cases hsuper : (t.entry c).super with
    | none => exact h.findMethod? hfixed name
    | some u =>
      dsimp only
      by_cases hu : u < c
      · rw [if_pos hu, if_pos hu]
        obtain ⟨s', hs'⟩ := hprep (Bool.eq_false_of_not_eq_true hm) u hu hsuper
        rw [metaclass_of_some hs']
        cases hold : (t.entry u).singleton with
        | none => exact ih u hu (hu.trans hc) hold hs'
        | some s₀ =>
          obtain rfl : s₀ = s' := Option.some.inj ((h.kept u s₀ hold).symm.trans hs')
          rw [metaclass_of_some hold]
          exact h.findMethod? (hl.below u s₀ hold).2 name
      · rw [if_neg hu, if_neg hu]
        exact h.findMethod? hfixed name

end Adds

/-! ## One singleton class -/

/-- The table with a singleton class for `c`. -/
def attached (t : ClassTable) (c : Nat) (e : Module) : ClassTable :=
  ((t.push e).modify t.size fun e => { e with attached := some c }).modify c fun e => { e with singleton := some t.size }

variable {e₀ : Module}

theorem entry_attached (hc : c < t.size) (d : Nat) : (t.attached c e₀).entry d =
    if d = c then { t.entry c with singleton := some t.size }
    else if d = t.size then { e₀ with attached := some c } else t.entry d := by
  have hpush : (t.push e₀).size = t.size + 1 := Array.size_push _
  have hlast : t.size < (t.push e₀).size := by omega
  have hnew (d : Nat) : ((t.push e₀).modify t.size fun e => { e with attached := some c }).entry d =
      if d = t.size then { e₀ with attached := some c } else t.entry d := by
    rw [entry_modify_of_lt hlast, entry_push, entry_push, if_pos rfl]
    split
    · rfl
    · rfl
  rw [attached, entry_modify_of_lt (by rw [size_modify]; omega), hnew, hnew, if_neg hc.ne]

theorem size_attached : (t.attached c e₀).size = t.size + 1 := by
  rw [attached, size_modify, size_modify]
  exact Array.size_push _

theorem singleton_of_le (h : t.size ≤ c) : (t.entry c).singleton = none := by
  rw [entry_of_le h]
  rfl

theorem adds_attached (hc : c < t.size) (hn : (t.entry c).singleton = none) (hm : e₀.methods = [])
    (hi : e₀.includes = []) : t.Adds (t.attached c e₀) where
  size := by
    rw [size_attached]
    exact Nat.le_succ _
  old d hd := by
    rw [entry_attached hc]
    split
    · subst d
      rfl
    · rw [if_neg hd.ne]
  kept d s hd := by
    have hdc : d ≠ c := fun he => by
      rw [he, hn] at hd
      cases hd
    have hlt : d < t.size := Nat.lt_of_not_le fun hle => by
      rw [singleton_of_le hle] at hd
      cases hd
    rw [entry_attached hc, if_neg hdc, if_neg hlt.ne, hd]
  fresh d s hlt hd hs := by
    rw [entry_attached hc] at hs
    split at hs
    · cases hs
      exact le_rfl
    · rw [if_neg hlt.ne, hd] at hs
      cases hs
  bare d hd := by
    rw [entry_attached hc, if_neg (hc.trans_le hd).ne']
    split
    · exact ⟨hm, hi⟩
    · rw [entry_of_le hd]
      exact ⟨rfl, rfl⟩

theorem linked_attached (hl : t.Linked) (hc : c < t.size) (hn : (t.entry c).singleton = none) (hp : t.Prepared c)
    (hab : t.above c < t.size) (hsuper : e₀.super = some (t.above c)) (hm : e₀.methods = []) (hi : e₀.includes = [])
    (hs : e₀.singleton = none) : (t.attached c e₀).Linked := by
  have ha := adds_attached hc hn hm hi
  have hsize : (t.attached c e₀).size = t.size + 1 := size_attached
  -- a class with a singleton class is `c`, or had it before
  have hcases {d s : Nat} (h : ((t.attached c e₀).entry d).singleton = some s) :
      d = c ∧ s = t.size ∨ d < t.size ∧ (t.entry d).singleton = some s := by
    rw [entry_attached hc] at h
    split at h
    · cases h
      exact .inl ⟨‹_›, rfl⟩
    split at h
    · rw [show ({ e₀ with attached := some c } : Module).singleton = e₀.singleton from rfl, hs] at h
      cases h
    · refine .inr ⟨Nat.lt_of_not_le fun hle => ?_, h⟩
      rw [singleton_of_le hle] at h
      cases h
  refine ⟨fun d s h => ?_, fun d s h => ?_, fun d s h => ?_⟩
  · rcases hcases h with ⟨rfl, -⟩ | ⟨hlt, hd⟩
    · exact ha.prepared hc hp
    · exact ha.prepared hlt (hl.prepared d s hd)
  · rcases hcases h with ⟨rfl, rfl⟩ | ⟨hlt, hd⟩
    · rw [ha.above hc hp]
      omega
    · have := hl.below d s hd
      rw [ha.above hlt (hl.prepared d s hd)]
      omega
  · rcases hcases h with ⟨rfl, rfl⟩ | ⟨hlt, hd⟩
    · rw [ha.above hc hp, entry_attached hc, if_neg hc.ne', if_pos rfl]
      exact hsuper
    · rw [ha.above hlt (hl.prepared d s hd), ha.old s (hl.below d s hd).2]
      exact hl.super d s hd

/-! ## Other definitions -/

theorem linked_empty : (ClassTable.mk #[]).Linked where
  prepared c s h := by
    rw [singleton_of_le (Nat.zero_le c)] at h
    cases h
  below c s h := by
    rw [singleton_of_le (Nat.zero_le c)] at h
    cases h
  super c s h := by
    rw [singleton_of_le (Nat.zero_le c)] at h
    cases h

/-- A class without a singleton class may be added. -/
theorem Linked.push (h : t.Linked) {e : Module} (hm : e.methods = []) (hi : e.includes = []) (hs : e.singleton = none) :
    (t.push e).Linked := by
  have hadds : t.Adds (t.push e) := by
    refine ⟨?_, fun d hd => ?_, fun d s hd => ?_, fun d s hlt hn hd => ?_, fun d hd => ?_⟩
    · rw [show (t.push e).size = t.size + 1 from Array.size_push _]
      exact Nat.le_succ _
    · rw [entry_push, if_neg hd.ne]
    · rw [entry_push]
      split
      · subst d
        rw [singleton_of_le le_rfl] at hd
        cases hd
      · exact hd
    · rw [entry_push, if_neg hlt.ne, hn] at hd
      cases hd
    · rw [entry_push]
      split
      · exact ⟨hm, hi⟩
      · rw [entry_of_le hd]
        exact ⟨rfl, rfl⟩
  have hcases {d s : Nat} (hd : ((t.push e).entry d).singleton = some s) : d < t.size ∧ (t.entry d).singleton = some s := by
    rw [entry_push] at hd
    split at hd
    · rw [hs] at hd
      cases hd
    · refine ⟨Nat.lt_of_not_le fun hle => ?_, hd⟩
      rw [singleton_of_le hle] at hd
      cases hd
  refine ⟨fun d s hd => ?_, fun d s hd => ?_, fun d s hd => ?_⟩ <;> obtain ⟨hlt, hd⟩ := hcases hd
  · exact hadds.prepared hlt (h.prepared d s hd)
  · rw [hadds.above hlt (h.prepared d s hd)]
    exact ⟨(h.below d s hd).1, (h.below d s hd).2.trans_le hadds.size⟩
  · rw [hadds.above hlt (h.prepared d s hd), hadds.old s (h.below d s hd).2]
    exact h.super d s hd

/-- Methods, constants, variables and modules of a class may change. -/
theorem Linked.modify (h : t.Linked) (c : Nat) {f : Module → Module} (hp : ∀ e, (f e).super = e.super)
    (hm : ∀ e, (f e).isModule = e.isModule) (hs : ∀ e, (f e).singleton = e.singleton) : (t.modify c f).Linked := by
  have hentry (d : Nat) : ((t.modify c f).entry d).super = (t.entry d).super ∧
      ((t.modify c f).entry d).isModule = (t.entry d).isModule ∧
      ((t.modify c f).entry d).singleton = (t.entry d).singleton := by
    rcases Nat.lt_or_ge c t.size with hc | hc
    · rw [entry_modify_of_lt hc]
      split
      · subst d
        exact ⟨hp _, hm _, hs _⟩
      · exact ⟨rfl, rfl, rfl⟩
    · rw [modify_of_le hc]
      exact ⟨rfl, rfl, rfl⟩
  have hmeta (d : Nat) : (t.modify c f).metaclass d = t.metaclass d := by
    induction d using Nat.strong_induction_on with
    | _ d ih =>
      obtain ⟨hp', hm', hs'⟩ := hentry d
      rw [metaclass, metaclass, hp', hm', hs']
      split
      · rfl
      split
      · rfl
      split
      · split
        · exact ih _ ‹_›
        · rfl
      · rfl
  have habove (d : Nat) : (t.modify c f).above d = t.above d := by
    rw [above, above, (hentry d).1, (hentry d).2.1]
    simp only [hmeta]
  refine ⟨fun d s hd => ?_, fun d s hd => ?_, fun d s hd => ?_⟩ <;> rw [(hentry d).2.2] at hd
  · intro hm' u hu hsuper
    rw [(hentry d).2.1] at hm'
    rw [(hentry d).1] at hsuper
    rw [(hentry u).2.2]
    exact h.prepared d s hd hm' u hu hsuper
  · rw [habove, size_modify]
    exact h.below d s hd
  · rw [habove, (hentry s).1]
    exact h.super d s hd

end ClassTable

/-! ## Making them -/

open ClassTable

variable {m m' : Machine} {c s n : Nat}

/-- What comes of making the singleton class of `c`. -/
structure Machine.Singled (m : Machine) (c s : Nat) (m' : Machine) : Prop where
  inv : m'.heap.Inv
  adds : m.classes.Adds m'.classes
  linked : m'.classes.Linked
  singleton : (m'.classes.entry c).singleton = some s
  /-- Only superclasses are given one too. -/
  others : ∀ d, (m'.classes.entry d).singleton = (m.classes.entry d).singleton ∨ d ∈ m.classes.chain c

theorem Exec.attach_ends (hroom : m.heap.pages.size < n) (hi : m.heap.Inv) (hl : m.classes.Linked) (hc : c < m.classes.size)
    (hn : (m.classes.entry c).singleton = none) (hp : m.classes.Prepared c) (hab : m.classes.above c < m.classes.size)
    (name : Ident) : Exec.Ends (Exec.attach c name (m.classes.above c)) m n fun s m' =>
      m.Singled c s m' ∧ m'.heap.pages.size ≤ m.heap.pages.size + 1 := by
  rcases Exec.alloc_apply hi (.module m.classes.size) with ⟨self, h', hrun, -, hinv, -, -, -, -, hgrows⟩ | ⟨hfull, hrun⟩
  · let e₀ : Module := { name, super := some (m.classes.above c), isModule := false, self }
    have hattach : Exec.attach c name (m.classes.above c) m = .ok m.classes.size
        { m with heap := h', classes := m.classes.attached c e₀, version := m.version + 1 } := by
      simp only [Exec.attach, Exec.allocModule, bind_apply, get_apply, hrun]
      rfl
    refine .of_ok hattach ⟨⟨hinv, adds_attached hc hn rfl rfl, linked_attached hl hc hn hp hab rfl rfl rfl rfl, ?_,
      fun d => ?_⟩, hgrows⟩
    · exact congrArg Module.singleton ((entry_attached hc c).trans (if_pos rfl))
    · show ((m.classes.attached c e₀).entry d).singleton = _ ∨ _
      rw [entry_attached hc]
      split
      · exact .inr (by rw [‹d = c›]; exact mem_chain_self hc)
      · split
        · exact .inl (‹d = m.classes.size› ▸ (singleton_of_le le_rfl).symm)
        · exact .inl rfl
  · have hsize : (m.withHeap m.heap.countAllocation).heap.pages.size = m.heap.pages.size :=
      congrArg Array.size (Heap.countAllocation_pages m.heap)
    refine .inr ⟨_, ?_, hsize.ge.trans' hfull, hsize.trans_lt hroom⟩
    simp only [Exec.attach, Exec.allocModule, bind_apply, get_apply, hrun, hsize]

/-- The singleton class of the superclass comes first. -/
theorem Machine.Singled.attach {u s' : Nat} {m₁ : Machine} (h : m.Singled u s' m₁) (hroom : m₁.heap.pages.size < n) (hc : c < m.classes.size)
    (hn : (m.classes.entry c).singleton = none) (hm : ¬ (m.classes.entry c).isModule = true)
    (hsuper : (m.classes.entry c).super = some u) (hu : u < c) (name : Ident) :
    Exec.Ends (Exec.attach c name s') m₁ n fun s m' =>
      m.Singled c s m' ∧ m'.heap.pages.size ≤ m₁.heap.pages.size + 1 := by
  have hc₁ : c < m₁.classes.size := hc.trans_le h.adds.size
  have hold := h.adds.old c hc
  have hchain : m.classes.chain c = c :: m.classes.chain u := by
    rw [chain, if_neg (Nat.not_le.2 hc), hsuper]
    exact if_pos hu
  have hn₁ : (m₁.classes.entry c).singleton = none := by
    rcases h.others c with he | he
    · rw [he, hn]
    · obtain ⟨-, -, -, hle⟩ := chain_split he
      exact absurd hu (Nat.not_lt.2 hle)
  have hsuper₁ : (m₁.classes.entry c).super = some u := by rw [hold, hsuper]
  have hab : m₁.classes.above c = s' := by
    rw [above, hsuper₁, if_neg (by rw [hold]; exact hm)]
    dsimp only
    rw [if_pos hu, metaclass_of_some h.singleton]
  have hp : m₁.classes.Prepared c := fun _ u' _ h' => by
    cases hsuper₁.symm.trans h'
    exact ⟨s', h.singleton⟩
  rw [← hab]
  refine (Exec.attach_ends hroom h.inv h.linked hc₁ hn₁ hp (hab ▸ (h.linked.below u s' h.singleton).2) name).imp ?_
  rintro s m' ⟨h', hgrows⟩
  refine ⟨⟨h'.inv, h.adds.trans h'.adds, h'.linked, h'.singleton, fun d => ?_⟩, hgrows⟩
  have hgrown : m₁.classes.chain c = m.classes.chain c := chain_grown h.adds.size (fun e he => by rw [h.adds.old e he]) hc
  rcases h'.others d with he' | hd
  · rcases h.others d with he | hd
    · exact .inl (he'.trans he)
    · exact .inr (hchain ▸ List.mem_cons_of_mem _ hd)
  · exact .inr (hgrown ▸ hd)

/-- Each class up to `c` takes one page at most. -/
theorem Exec.singletonClass_ends (hi : m.heap.Inv) (hl : m.classes.Linked) (hfixed : cls < m.classes.size)
    (hc : c < m.classes.size) : Exec.Ends (Exec.singletonClass c) m (m.heap.pages.size + c + 1) fun s m' =>
      m.Singled c s m' ∧ m'.heap.pages.size ≤ m.heap.pages.size + c + 1 := by
  induction c using Nat.strong_induction_on generalizing m with
  | _ c ih =>
    rw [Exec.singletonClass]
    have hentry : Exec.module c m = .ok (m.classes.entry c) m := rfl
    refine .step hentry ?_
    cases hn : (m.classes.entry c).singleton with
    | some s => exact .of_ok rfl ⟨⟨hi, .refl _, hl, hn, fun d => .inl rfl⟩, by omega⟩
    | none =>
      have plain {v : Nat} (hab : m.classes.above c = v) (hv : v < m.classes.size) (hp : m.classes.Prepared c) :
          Exec.Ends (pure v >>= Exec.attach c (m.classes.entry c).name) m (m.heap.pages.size + c + 1) fun s m' =>
            m.Singled c s m' ∧ m'.heap.pages.size ≤ m.heap.pages.size + c + 1 := by
        rw [pure_bind, ← hab]
        exact (Exec.attach_ends (by omega) hi hl hc hn hp (hab ▸ hv) _).imp fun s m' ⟨h, hgrows⟩ => ⟨h, by omega⟩
      dsimp only
      by_cases hm : (m.classes.entry c).isModule = true
      · rw [if_pos hm]
        exact plain (if_pos hm) (lt_trans (by decide) hfixed) fun h => absurd (h.symm.trans hm) Bool.false_ne_true
      rw [if_neg hm]
      have hab : m.classes.above c = _ := if_neg hm
      cases hsuper : (m.classes.entry c).super with
      | none =>
        rw [hsuper] at hab
        exact plain hab hfixed fun _ u _ h => nomatch hsuper.symm.trans h
      | some u =>
        rw [hsuper] at hab
        dsimp only at hab ⊢
        by_cases hu : u < c
        · rw [if_pos hu]
          refine ((ih u hu hi hl hfixed (hu.trans hc)).of_le (by omega)).bind fun s' m₁ ⟨h₁, hgrows₁⟩ => ?_
          exact (h₁.attach (by omega) hc hn hm hsuper hu _).imp fun s m' ⟨h, hgrows⟩ => ⟨h, by omega⟩
        · rw [if_neg hu] at hab ⊢
          refine plain hab hfixed fun _ u' hu' h => ?_
          cases hsuper.symm.trans h
          exact absurd hu' hu

/-- When a singleton class is made, the classes that get one by it are sent what the nearest singleton class above them
held, and the class objects of all other classes are sent what they were sent before. -/
theorem singletonClass_dispatches (hi : m.heap.Inv) (hl : m.classes.Linked) (hfixed : cls < m.classes.size)
    (hc : c < m.classes.size) : Exec.Ends (Exec.singletonClass c) m (m.heap.pages.size + c + 1) fun s m' =>
      m'.classes.classOf c = s ∧ ∀ d < m.classes.size,
        (m'.classes.classOf d = m.classes.classOf d ∧
          ∀ name, m'.classes.findMethod? (m'.classes.classOf d) name = m.classes.findMethod? (m.classes.classOf d) name) ∨
        (d ∈ m.classes.chain c ∧ (m.classes.entry d).singleton = none ∧
          ∀ name, m'.classes.findMethod? (m'.classes.classOf d) name = m.classes.findMethod? (m.classes.metaclass d) name) := by
  refine (Exec.singletonClass_ends hi hl hfixed hc).imp fun s m' ⟨h, _⟩ => ⟨?_, fun d hd => ?_⟩
  · rw [ClassTable.classOf, h.singleton]
  have hmodule : (m'.classes.entry d).isModule = (m.classes.entry d).isModule := by rw [h.adds.old d hd]
  by_cases hsame : (m'.classes.entry d).singleton = (m.classes.entry d).singleton
  · have hclass : m'.classes.classOf d = m.classes.classOf d := by rw [ClassTable.classOf, ClassTable.classOf, hsame, hmodule]
    refine .inl ⟨hclass, fun name => ?_⟩
    rw [hclass]
    exact h.adds.findMethod? (hl.classOf_lt hfixed d) name
  · have hn : (m.classes.entry d).singleton = none := by
      cases hs : (m.classes.entry d).singleton with
      | none => rfl
      | some s₀ => exact absurd ((h.adds.kept d s₀ hs).trans hs.symm) hsame
    obtain ⟨s₁, hs₁⟩ := Option.ne_none_iff_exists'.1 fun h' => hsame (h'.trans hn.symm)
    refine .inr ⟨(h.others d).resolve_left hsame, hn, fun name => ?_⟩
    rw [ClassTable.classOf, hs₁]
    exact h.adds.findMethod?_given hl h.linked hfixed hd hn hs₁ name

end RubyMachine
