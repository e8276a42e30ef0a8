import RubyMachine.Proofs.Scope.Filling

/-! Scopes from outside: in whatever order they are made, bound to other code, copied and written to, every one of
them stays complete, has the local slots of its code, and changes only when something is done to itself. -/

namespace RubyMachine

open Exec

namespace Machine

variable {m m' m'' : Machine} {u v w x top self outer : Value} {s s' : Scope} {i n : Nat} {fn : FnId}
  {seq : Code.Sequence} {cs cs' cs'' : List Value}

/-! ## Chains of scopes -/

/-- Only one complete scope is in a place. -/
theorem eq_of_toRef {t : Scope} (hs : m.scope? v = some s) (hv : s.Shaped v) (ht : m.scope? w = some t)
    (hw : t.Shaped w) (h : w.toRef = v.toRef) : w = v := by
  obtain ⟨-, hr⟩ := scope?_eq_some.1 hs
  obtain ⟨-, hr'⟩ := scope?_eq_some.1 ht
  rw [h, hr] at hr'
  cases hr'
  rw [← hv.self, hw.self]

/-- A chain of scopes does not lead back to where it starts. -/
theorem Enclosed.outer_ne (h : m.Enclosed v top) (hs : m.scope? v = some s) : s.word 4 ≠ v := by
  induction h generalizing s with
  | method hs' hv ho _ =>
    cases hs.symm.trans hs'
    intro he
    rw [he, Value.isNil_of_isRef (isRef_of_scope? hs)] at ho
    cases ho
  | block hs' _ _ _ ih =>
    cases hs.symm.trans hs'
    intro he
    exact ih (by rw [he]; exact hs) rfl

/-- The method links of a chain are those that its outer links give. -/
theorem Enclosed.methodOf (h : m.Enclosed v top) (hs : m.scope? v = some s) : m.MethodOf v (s.word 4) top := by
  have hne := h.outer_ne hs
  cases h with
  | method hs' _ ho _ =>
    cases hs.symm.trans hs'
    exact .inl ⟨ho, rfl⟩
  | block hs' hv ho _ =>
    cases hs.symm.trans hs'
    obtain ⟨t, ht, hsh, hm⟩ := ho.scope
    exact .inr ⟨Value.isNil_of_isRef ho.isRef, fun he => hne (eq_of_toRef hs hv ht hsh he), t, ht, hsh, hm⟩

theorem Enclosed.outermost_isNil (h : m.Enclosed v top) : ∃ t, m.scope? top = some t ∧ (t.word 4).isNil = true := by
  induction h with
  | method hs _ ho _ => exact ⟨_, hs, ho⟩
  | block _ _ _ _ ih => exact ih

/-- A scope is its own method scope when it has no outer one, and only then. -/
theorem Enclosed.method_eq_iff (h : m.Enclosed v top) (hs : m.scope? v = some s) : top = v ↔ (s.word 4).isNil = true := by
  constructor
  · rintro rfl
    obtain ⟨t, ht, hn⟩ := h.outermost_isNil
    cases hs.symm.trans ht
    exact hn
  · intro hn
    rcases h.methodOf hs with ⟨-, he⟩ | ⟨hn', -⟩
    · exact he
    · rw [hn] at hn'; cases hn'

/-- Chains stay when one scope is written over, as long as it keeps its links. -/
theorem Enclosed.touched (h : m.Enclosed u top) (ht : m.Touches m' v) (hs' : m'.scope? v = some s') (hv : s'.Shaped v)
    (hold : ∀ s, m.scope? v = some s → s.Shaped v ∧ s'.word 4 = s.word 4 ∧ s'.word 3 = s.word 3) : m'.Enclosed u top := by
  have hhere {u : Value} {s : Scope} (hs : m.scope? u = some s) (hu : s.Shaped u) (he : u.toRef = v.toRef) :
      u = v ∧ s'.word 4 = s.word 4 ∧ s'.word 3 = s.word 3 := by
    have hsv : m.scope? v = some s :=
      scope?_eq_some.2 ⟨isRef_of_scope? hs', he ▸ (scope?_eq_some.1 hs).2⟩
    obtain ⟨hsh, h4, h3⟩ := hold s hsv
    exact ⟨by rw [← hu.self, hsh.self], h4, h3⟩
  induction h with
  | @method u s hs hu ho hm =>
    by_cases he : u.toRef = v.toRef
    · obtain ⟨rfl, h4, h3⟩ := hhere hs hu he
      exact .method hs' hv (h4 ▸ ho) (h3.trans hm)
    · exact .method (ht.scope? he hs) hu ho hm
  | @block u top s hs hu _ hm ih =>
    by_cases he : u.toRef = v.toRef
    · obtain ⟨rfl, h4, h3⟩ := hhere hs hu he
      exact .block hs' hv (h4 ▸ ih) (h3.trans hm)
    · exact .block (ht.scope? he hs) hu ih hm

/-- A new scope is complete when its outer one is. -/
theorem Enclosed.of_links (hs : m.scope? v = some s) (hv : s.Shaped v) (hm : s.word 3 = top)
    (ho : (s.word 4).isNil = true ∧ top = v ∨ m.Enclosed (s.word 4) top) : m.Enclosed v top := by
  rcases ho with ⟨hn, rfl⟩ | ho
  · exact .method hs hv hn hm
  · exact .block hs hv ho hm

/-! ## What holds of every scope -/

/-- A scope whose chain is complete and which has as many local slots as its code. -/
structure Whole (m : Machine) (v : Value) : Prop where
  chain : ∃ top, m.Enclosed v top
  bound : ∃ s fn seq, m.scope? v = some s ∧ s.Bound v fn seq.slotCount ∧ sequence fn m = .ok seq m

theorem Touches.sequence (h : m.Touches m' v) (hseq : sequence fn m = .ok seq m) : sequence fn m' = .ok seq m' := by
  have hfunctions : m'.functions = m.functions := by
    rw [← h.rest]
    rfl
  rw [sequence_eq_ok] at hseq ⊢
  exact ⟨rfl, hfunctions ▸ hseq.2⟩

/-- A scope that is written over keeps its links. -/
def Relinks (m : Machine) (v : Value) (s' : Scope) : Prop :=
  ∀ s, m.scope? v = some s → s.Shaped v ∧ s'.word 4 = s.word 4 ∧ s'.word 3 = s.word 3

theorem relinks_of_vacant (h : ∀ o, m.heap.read v.toRef ≠ .ok o) : m.Relinks v s' :=
  fun _ hs => (h _ (scope?_eq_some.1 hs).2).elim

theorem Whole.touched (h : m.Whole u) (ht : m.Touches m' v) (hs' : m'.scope? v = some s')
    (hb : s'.Bound v fn seq.slotCount) (hseq : Exec.sequence fn m = .ok seq m) (hold : m.Relinks v s') : m'.Whole u := by
  obtain ⟨⟨top, htop⟩, s, fn', seq', hs, hb', hseq'⟩ := h
  refine ⟨⟨top, htop.touched ht hs' hb.shaped hold⟩, ?_⟩
  by_cases he : u.toRef = v.toRef
  · have hsv : m.scope? v = some s := scope?_eq_some.2 ⟨isRef_of_scope? hs', he ▸ (scope?_eq_some.1 hs).2⟩
    obtain rfl := eq_of_toRef hsv (hold s hsv).1 hs hb'.shaped he
    exact ⟨s', fn, seq, hs', hb, ht.sequence hseq⟩
  · exact ⟨s, fn', seq', ht.scope? he hs, hb', ht.sequence hseq'⟩

/-- A change in one place changes no scope in another. -/
theorem Whole.scope?_eq (h : m.Whole v) (ht : m.Touches m' w)
    (hw : (∀ o, m.heap.read w.toRef ≠ .ok o) ∨ m.Whole w ∧ w ≠ v) : m'.scope? v = m.scope? v := by
  obtain ⟨-, s, fn, seq, hs, hb, -⟩ := h
  rw [hs]
  refine ht.scope? (fun he => ?_) hs
  rcases hw with hvac | ⟨⟨-, s', _, _, hs', hb', -⟩, hne⟩
  · exact hvac _ (he ▸ (scope?_eq_some.1 hs).2)
  · exact hne (eq_of_toRef hs hb.shaped hs' hb'.shaped he.symm)

theorem Whole.not_vacant (h : m.Whole v) : ¬ ∀ o, m.heap.read v.toRef ≠ .ok o := by
  obtain ⟨-, s, -, -, hs, -⟩ := h
  exact fun hvac => hvac _ (scope?_eq_some.1 hs).2

/-! ## Deeds -/

/-- What is done with scopes from outside. -/
inductive Deed where
  | make (self : Value) (fn : FnId) (outer : Value)
  | bind (scope : Value) (fn : FnId)
  | copy (scope : Value)
  | set (scope : Value) (slot : Nat) (value : Value)

namespace Deed

/-- The scope that is written to. -/
def target? : Deed → Option Value
  | .bind v _ | .set v _ _ => some v
  | _ => none

/-- Does something with scopes; `cs` are those that there are. -/
def perform (cs : List Value) : Deed → Exec (List Value)
  | .make self fn outer => return (← newScope self fn outer) :: cs
  | .bind v fn => do
    rebindScope v fn
    return cs
  | .copy v => return (← dupScope v) :: cs
  | .set v i x => do
    (Env.heap v).setLocalAt i x
    return cs

/-- Scopes are nested in such as there are, and written to within their local slots. -/
def Proper (m : Machine) (cs : List Value) : Deed → Prop
  | .make _ fn outer => (outer = .nil ∨ outer ∈ cs) ∧
      ∀ seq, sequence fn m = .ok seq m → ∀ slot ∈ seq.kwRestSlot, slot.toNat < seq.slotCount
  | .bind v _ | .copy v => v ∈ cs
  | .set v i _ => v ∈ cs ∧ ∃ s, m.scope? v = some s ∧ i < s.slotCount

end Deed

/-- Every scope is whole. -/
structure Upright (m : Machine) (cs : List Value) : Prop where
  inv : m.heap.Inv
  whole : ∀ v ∈ cs, m.Whole v

/-- The scopes that there were are there and, but for the target, as they were. -/
structure Spared (m m' : Machine) (cs cs' : List Value) (target : Option Value) : Prop where
  subset : cs ⊆ cs'
  same : ∀ v ∈ cs, target ≠ some v → m'.scope? v = m.scope? v

namespace Upright

variable (h : m.Upright cs)

include h

theorem touched (ht : m.Touches m' v) (hs' : m'.scope? v = some s') (hb : s'.Bound v fn seq.slotCount)
    (hseq : Exec.sequence fn m = .ok seq m) (hold : m.Relinks v s') : m'.Upright cs where
  inv := ht.inv
  whole u hu := (h.whole u hu).touched ht hs' hb hseq hold

/-- A new scope is one more that is whole. -/
theorem cons (ht : m.Touches m' v) (hvac : ∀ o, m.heap.read v.toRef ≠ .ok o) (hs' : m'.scope? v = some s')
    (hb : s'.Bound v fn seq.slotCount) (hseq : Exec.sequence fn m = .ok seq m)
    (ho : (s'.word 4).isNil = true ∧ s'.word 3 = v ∨ m.Enclosed (s'.word 4) (s'.word 3)) :
    m'.Upright (v :: cs) ∧ m.Spared m' cs (v :: cs) none := by
  have hold : m.Relinks v s' := relinks_of_vacant hvac
  have hwhole : m'.Whole v := by
    refine ⟨⟨_, .of_links hs' hb.shaped rfl (ho.imp_right fun he => ?_)⟩, s', fn, seq, hs', hb, ht.sequence hseq⟩
    exact he.touched ht hs' hb.shaped hold
  refine ⟨⟨ht.inv, fun u hu => ?_⟩, List.subset_cons_self v cs, fun u hu _ =>
    (h.whole u hu).scope?_eq ht (.inl hvac)⟩
  rcases List.mem_cons.1 hu with rfl | hu
  · exact hwhole
  · exact (h.touched ht hs' hb hseq hold).whole u hu

theorem make (hp : (Deed.make self fn outer).Proper m cs) (hrun : newScope self fn outer m = .ok v m') :
    m'.Upright (v :: cs) ∧ m.Spared m' cs (v :: cs) none := by
  obtain ⟨hout, hkw⟩ := hp
  obtain ⟨seq, hf⟩ := newScope_fits hrun
  have henclosed : outer = .nil ∨ ∃ t, m.Enclosed outer t := hout.imp_right fun ho => (h.whole outer ho).chain
  obtain ⟨-, hvac, ht, top, s, hm, hs, hopen⟩ := (newScope_ends h.inv hf henclosed (hkw seq hf.code)).of_run hrun
  refine h.cons ht hvac hs hopen.toBound hf.code ?_
  rw [hopen.outer, hopen.method]
  rcases hm with hn | ⟨hn, -, t, hto, -, rfl⟩
  · exact .inl hn
  · rcases henclosed with rfl | ⟨top, he⟩
    · cases hn
    · obtain ⟨t', ht', -, rfl⟩ := he.scope
      cases hto.symm.trans ht'
      exact .inr he

theorem bind (hv : v ∈ cs) (hf : m.Fits fn seq) : ∃ m', rebindScope v fn m = .ok () m' ∧ m'.Upright cs ∧
    m.Spared m' cs cs (some v) ∧ ∃ s s', m.scope? v = some s ∧ m'.scope? v = some s' ∧
      s'.Bound v fn seq.slotCount ∧ Rebinds s s' seq.slotCount := by
  obtain ⟨⟨top, he⟩, s, _, _, hs, hb, -⟩ := h.whole v hv
  obtain ⟨s₀, hs₀, -, rfl⟩ := he.scope
  cases hs.symm.trans hs₀
  obtain ⟨m', s', hrun, ht, hs', hb', hr⟩ := rebindScope_apply h.inv hf hs hb.shaped (he.methodOf hs)
  have hold : m.Relinks v s' := fun t hst => by
    cases hs.symm.trans hst
    exact ⟨hb.shaped, hr.outer, hr.method⟩
  refine ⟨m', hrun, h.touched ht hs' hb' hf.code hold, ⟨List.Subset.refl cs, fun u hu hne => ?_⟩, s, s', hs, hs', hb', hr⟩
  exact (h.whole u hu).scope?_eq ht (.inr ⟨h.whole v hv, fun he => hne (congrArg some he)⟩)

theorem copy (hv : v ∈ cs) : Ends (dupScope v) m (m.heap.pages.size + 1) fun w m' => w ∉ cs ∧ m'.Upright (w :: cs) ∧
    m.Spared m' cs (w :: cs) none ∧ ∃ s s', m.scope? v = some s ∧ m'.scope? w = some s' ∧ Copies s s' v w := by
  obtain ⟨⟨top, he⟩, s, fn, seq, hs, hb, hseq⟩ := h.whole v hv
  obtain ⟨s₀, hs₀, -, rfl⟩ := he.scope
  cases hs.symm.trans hs₀
  refine (dupScope_ends h.inv hs hb).imp fun w m' ⟨hw, hvac, ht, s', hs', hb', hc⟩ => ?_
  refine ⟨fun hmem => (h.whole w hmem).not_vacant hvac, ?_⟩
  suffices hlinks : (s'.word 4).isNil = true ∧ s'.word 3 = w ∨ m.Enclosed (s'.word 4) (s'.word 3) by
    obtain ⟨hup, hsp⟩ := h.cons ht hvac hs' hb' hseq hlinks
    exact ⟨hup, hsp, s, s', hs, hs', hc⟩
  rw [hc.outer, hc.method]
  split_ifs with htop
  · exact .inl ⟨(he.method_eq_iff hs).1 htop, rfl⟩
  · cases he with
    | method hs₁ _ _ hm =>
      cases hs.symm.trans hs₁
      exact absurd hm htop
    | block hs₁ _ ho _ =>
      cases hs.symm.trans hs₁
      exact .inr ho

theorem set (hv : v ∈ cs) (hs : m.scope? v = some s) (hi : i < s.slotCount) (x : Value) :
    ∃ m', (Env.heap v).setLocalAt i x m = .ok () m' ∧ m'.Upright cs ∧ m.Spared m' cs cs (some v) := by
  obtain ⟨-, s₀, fn, seq, hs₀, hb, hseq⟩ := h.whole v hv
  cases hs.symm.trans hs₀
  have hlt : i < seq.slotCount := hb.count ▸ hi
  obtain ⟨m', hrun, ht, hs'⟩ := setLocalAt_bound h.inv hs hb hlt x
  obtain ⟨hb', -, hword, -⟩ := hb.put (x := x) hlt
  have hold : m.Relinks v (s.put (i + 1) x) := fun t hst => by
    cases hs.symm.trans hst
    exact ⟨hb.shaped, hword 4 (by decide), hword 3 (by decide)⟩
  refine ⟨m', hrun, h.touched ht hs' hb' hseq hold, List.Subset.refl cs, fun u hu hne => ?_⟩
  exact (h.whole u hu).scope?_eq ht (.inr ⟨h.whole v hv, fun he => hne (congrArg some he)⟩)

/-- What one deed keeps. -/
theorem step {d : Deed} (hp : d.Proper m cs) (hrun : d.perform cs m = .ok cs' m') :
    m'.Upright cs' ∧ m.Spared m' cs cs' d.target? := by
  cases d with
  | make self fn outer =>
    obtain ⟨v, m₁, hmake, hret⟩ := exists_of_bind hrun
    cases hret
    exact h.make hp hmake
  | bind v fn =>
    obtain ⟨_, m₁, hbind, hret⟩ := exists_of_bind hrun
    cases hret
    obtain ⟨seq, hf⟩ := rebindScope_fits hbind
    obtain ⟨m₂, hrun', hup, hsp, -⟩ := h.bind hp hf
    cases hbind.symm.trans hrun'
    exact ⟨hup, hsp⟩
  | copy v =>
    obtain ⟨w, m₁, hcopy, hret⟩ := exists_of_bind hrun
    cases hret
    obtain ⟨-, hup, hsp, -⟩ := (h.copy hp).of_run hcopy
    exact ⟨hup, hsp⟩
  | set v i x =>
    obtain ⟨hv, s, hs, hi⟩ := hp
    obtain ⟨_, m₁, hset, hret⟩ := exists_of_bind hrun
    cases hret
    obtain ⟨m₂, hrun', hup, hsp⟩ := h.set hv hs hi x
    cases hset.symm.trans hrun'
    exact ⟨hup, hsp⟩

end Upright

/-! ## One deed after the other -/

inductive Does : Machine → List Value → List Deed → Machine → List Value → Prop
  | nil {m : Machine} {cs : List Value} : Does m cs [] m cs
  | cons {m m' m'' : Machine} {cs cs' cs'' : List Value} {d : Deed} {ds : List Deed} : d.Proper m cs →
      d.perform cs m = .ok cs' m' → Does m' cs' ds m'' cs'' → Does m cs (d :: ds) m'' cs''

variable {ds : List Deed}

theorem Does.upright (h : Does m cs ds m' cs') (hm : m.Upright cs) : m'.Upright cs' := by
  induction h with
  | nil => exact hm
  | cons hp hrun _ ih => exact ih (hm.step hp hrun).1

/-- A scope to which nothing is done stays as it is. -/
theorem Does.scope?_eq (h : Does m cs ds m' cs') (hm : m.Upright cs) (hv : v ∈ cs)
    (hds : ∀ d ∈ ds, d.target? ≠ some v) : m'.scope? v = m.scope? v := by
  induction h with
  | nil => rfl
  | @cons m m₁ _ cs cs₁ _ d ds hp hrun _ ih =>
    obtain ⟨hup, hsp⟩ := hm.step hp hrun
    rw [ih hup (hsp.subset hv) fun d hd => hds d (List.mem_cons_of_mem _ hd), hsp.same v hv (hds d List.mem_cons_self)]

/-- Whatever was done with scopes, each of them is complete and has the local slots of its code. Binding it to other
code keeps its receiver, its links and the locals that both have, makes the other locals nil, and changes no other
scope. A copy shows what it shows, and nothing that is done later but not to the scope itself changes it. -/
theorem scopes_upheld (hi : m.heap.Inv) (h : Does m [] ds m' cs) (hv : v ∈ cs) :
    m'.Whole v ∧
    (∀ fn seq, m'.Fits fn seq → ∃ m₁, rebindScope v fn m' = .ok () m₁ ∧
      (∃ s s', m'.scope? v = some s ∧ m₁.scope? v = some s' ∧ s'.Bound v fn seq.slotCount ∧
        Rebinds s s' seq.slotCount) ∧ ∀ w ∈ cs, w ≠ v → m₁.scope? w = m'.scope? w) ∧
    Ends (dupScope v) m' (m'.heap.pages.size + 1) fun w m₁ => w ∉ cs ∧
      (∃ s s', m'.scope? v = some s ∧ m₁.scope? w = some s' ∧ Copies s s' v w) ∧ ∀ ds' m₂ cs', Does m₁ (w :: cs) ds' m₂ cs' → (∀ d ∈ ds', d.target? ≠ some v) → m₂.scope? v = m'.scope? v := by
  have hup := h.upright ⟨hi, fun _ hv => absurd hv List.not_mem_nil⟩
  refine ⟨hup.whole v hv, fun fn seq hf => ?_, (hup.copy hv).imp fun w m₁ ⟨hw, hup₁, hsp, hc⟩ => ?_⟩
  · obtain ⟨m₁, hrun, -, hsp, hs⟩ := hup.bind hv hf
    exact ⟨m₁, hrun, hs, fun w hw hne => hsp.same w hw fun he => hne (Option.some.inj he).symm⟩
  · refine ⟨hw, hc, fun ds' m₂ cs' hdo hds => ?_⟩
    rw [hdo.scope?_eq hup₁ (hsp.subset hv) hds, hsp.same v hv fun h => by cases h]

/-- A machine with two functions, one with two local slots and one with three. -/
def withPair : Machine where
  options := {}
  heap := .new 0 false
  functions := ⟨#[{ name := ⟨0⟩, body := .code { name := ⟨0⟩, kind := .other, slots := 2 } },
    { name := ⟨0⟩, body := .code { name := ⟨0⟩, kind := .block, slots := 3 } }]⟩
  pool := { capacity := 0, stackSize := 0 }
  context := { stack := .empty 0 }

/-- The first scope that is made. -/
def firstScope : Value := .ofRef (.make 0 0 0)

/-- The one that is made next. -/
def nestedScope : Value := .ofRef (.make 0 1 0)

def copiedScope : Value := .ofRef (.make 0 2 0)

theorem newScope_pair : newScope .nil ⟨1⟩ .nil withPair = .ok firstScope (after (newScope .nil ⟨1⟩ .nil) withPair) :=
  eq_ok_of_result? (by decide)

/-- A scope is made, and one in it, which is bound to code with another local. This local is set, and then the scope is
copied. -/
def nestedDeeds : List Deed :=
  [.make .nil ⟨1⟩ .nil, .make .true ⟨1⟩ firstScope, .bind nestedScope ⟨2⟩, .set nestedScope 2 .false, .copy nestedScope]

theorem does_nested : ∃ m, Does withPair [] nestedDeeds m [copiedScope, nestedScope, firstScope] ∧
    m.heap.pages.size = 1 ∧ (m.functions.sequence ⟨1⟩).toOption.map (·.slotCount) = some 2 ∧
      (m.scope? nestedScope).map (·.slotCount) = some 3 := by
  have ran {m : Machine} {cs : List Value} {d : Deed} (cs' : List Value) (h : result? (d.perform cs) m = some cs') :
      d.perform cs m = .ok cs' (after (d.perform cs) m) := eq_ok_of_result? h
  have unnamed {m : Machine} (h : (m.functions.sequence ⟨1⟩).toOption.map (·.kwRestSlot) = some none) :
      ∀ seq, sequence ⟨1⟩ m = .ok seq m → ∀ slot ∈ seq.kwRestSlot, slot.toNat < seq.slotCount := by
    intro seq hseq slot hslot
    rw [(sequence_eq_ok.1 hseq).2] at h
    have hnone : seq.kwRestSlot = none := Option.some.inj h
    rw [hnone] at hslot
    cases hslot
  have sized {m : Machine} {v : Value} (h : (m.scope? v).map (·.slotCount) = some 3) :
      ∃ s, m.scope? v = some s ∧ 2 < s.slotCount := by
    obtain ⟨s, hs, hn⟩ := Option.map_eq_some_iff.1 h
    exact ⟨s, hs, by rw [show s.slotCount = 3 from hn]; decide⟩
  rw [nestedDeeds]
  refine ⟨_, .cons ⟨.inl rfl, unnamed rfl⟩ (ran [firstScope] ?_)
    (.cons ⟨.inr List.mem_cons_self, unnamed ?_⟩ (ran [nestedScope, firstScope] ?_)
    (.cons (show nestedScope ∈ [nestedScope, firstScope] from List.mem_cons_self) (ran [nestedScope, firstScope] ?_)
    (.cons ⟨List.mem_cons_self, sized ?_⟩ (ran [nestedScope, firstScope] ?_)
    (.cons (show nestedScope ∈ [nestedScope, firstScope] from List.mem_cons_self)
      (ran [copiedScope, nestedScope, firstScope] ?_) .nil)))), ?_, ?_, ?_⟩ <;> decide +kernel

/-- The nested scope is whole after all of it. There is room to copy it once more, and setting a local of the copy changes
nothing in it. It can be bound to the first function again, and then has two locals. -/
theorem scopes_upheld_pair : withPair.heap.Inv ∧ ∃ m, Does withPair [] nestedDeeds m [copiedScope, nestedScope, firstScope] ∧
    nestedScope ∈ [copiedScope, nestedScope, firstScope] ∧ m.Whole nestedScope ∧
    (∃ w m₁ m₂, dupScope nestedScope m = .ok w m₁ ∧ (Env.heap w).setLocalAt 2 .true m₁ = .ok () m₂ ∧
      m₂.scope? nestedScope = m.scope? nestedScope) ∧
    ∃ m₁ s s', rebindScope nestedScope ⟨1⟩ m = .ok () m₁ ∧ m.scope? nestedScope = some s ∧
      m₁.scope? nestedScope = some s' ∧ Rebinds s s' 2 ∧ m₁.scope? firstScope = m.scope? firstScope := by
  have hinv : withPair.heap.Inv := Heap.inv_new 0 false
  obtain ⟨m, hdoes, hpages, hcode, hslots⟩ := does_nested
  have hmem : nestedScope ∈ [copiedScope, nestedScope, firstScope] := List.mem_cons_of_mem _ List.mem_cons_self
  obtain ⟨hwhole, hbind, hcopy⟩ := scopes_upheld hinv hdoes hmem
  refine ⟨hinv, m, hdoes, hmem, hwhole, ?_, ?_⟩
  · obtain ⟨w, m₁, hrun, hnew, ⟨s, s', hs, hs', hc⟩, hlater⟩ := hcopy.exists_ok (by rw [hpages]; decide)
    rw [hs] at hslots
    have hcount : s'.slotCount = s.slotCount := by
      simpa [Scope.layer] using congrArg (·.locals.length) hc.layer
    have hthree : s.slotCount = 3 := Option.some.inj hslots
    have hi : 2 < s'.slotCount := by omega
    have hup := hdoes.upright ⟨hinv, fun _ hv => absurd hv List.not_mem_nil⟩
    obtain ⟨-, hup₁, -⟩ := (hup.copy hmem).of_run hrun
    obtain ⟨m₂, hset, -⟩ := hup₁.set List.mem_cons_self hs' hi .true
    have hdid : Does m₁ [w, copiedScope, nestedScope, firstScope] [.set w 2 .true] m₂
        [w, copiedScope, nestedScope, firstScope] :=
      .cons ⟨List.mem_cons_self, s', hs', hi⟩ (bind_of_ok hset) .nil
    refine ⟨w, m₁, m₂, hrun, hset, hlater _ _ _ hdid fun d hd => ?_⟩
    obtain rfl := List.mem_singleton.1 hd
    exact fun he => hnew (Option.some.inj he ▸ hmem)
  · obtain ⟨seq, hseq, hcount⟩ := Option.map_eq_some_iff.1 hcode
    have hfits : m.Fits ⟨1⟩ seq := by
      refine .of_lt (sequence_eq_ok.2 ⟨rfl, ?_⟩) (by rw [show seq.slotCount = 2 from hcount]; decide)
      revert hseq
      cases m.functions.sequence ⟨1⟩ <;> simp [Except.toOption]
    obtain ⟨m₁, hrun, ⟨s, s', hs, hs', -, hr⟩, hsame⟩ := hbind ⟨1⟩ seq hfits
    have htwo : seq.slotCount = 2 := hcount
    exact ⟨m₁, s, s', hrun, hs, hs', htwo ▸ hr, hsame firstScope (by simp) (by decide)⟩

/-- Local slots are not counted when they are set: past them are the control words, and a scope whose method link was
set is not complete any more. -/
theorem setLocalAt_strays : ∃ m m', newScope .nil ⟨1⟩ .nil withPair = .ok firstScope m ∧
    (Env.heap firstScope).setLocalAt 6 .nil m = .ok () m' ∧ ∀ top, ¬ m'.Enclosed firstScope top := by
  refine ⟨_, after ((Env.heap firstScope).setLocalAt 6 .nil) (after (newScope .nil ⟨1⟩ .nil) withPair), newScope_pair,
    eq_ok_of_result? (by decide +kernel), fun top h => ?_⟩
  obtain ⟨s, hs, -, rfl⟩ := h.scope
  have hword : (scope? (after ((Env.heap firstScope).setLocalAt 6 .nil) (after (newScope .nil ⟨1⟩ .nil) withPair))
      firstScope).map (·.word 3) = some .nil := by
    decide +kernel
  rw [hs, Option.map_some, Option.some.injEq] at hword
  have href := h.outermost.isRef
  rw [hword] at href
  exact absurd href (by decide)

end Machine

end RubyMachine
