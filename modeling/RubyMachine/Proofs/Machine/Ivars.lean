import RubyMachine.Proofs.Class.Slots
import RubyMachine.Proofs.Heap.Use
import RubyMachine.Proofs.Machine.Soundness

/-! Instance variables do not alias: what is read is what was last written, as long as no slot is given out
in a class whose number a class below uses already. -/

namespace RubyMachine

theorem Object.slotAt_setSlot (s : Array Value) (i j : Nat) (v : Value) :
    slotAt (setSlot s i v) j = if j = i then v else slotAt s j := by
  unfold slotAt setSlot
  simp only [Array.getD_eq_getD_getElem?]
  split
  · rename_i hi
    rw [Array.getElem?_setIfInBounds]
    split_ifs with h h'
    · rfl
    · exact absurd h.symm h'
    · exact absurd ‹j = i›.symm h
    · rfl
  · rename_i hi
    rw [Array.getElem?_push, Array.size_append, Array.size_replicate, Nat.add_sub_of_le (Nat.not_lt.1 hi)]
    split_ifs with h
    · rfl
    · rw [Array.getElem?_append, Array.getElem?_replicate]
      split_ifs with hj hj'
      · rfl
      · rw [Array.getElem?_eq_none (Nat.not_lt.1 hj)]
        rfl
      · rw [Array.getElem?_eq_none (Nat.not_lt.1 hj)]

/-- The class and the slots of an instance. -/
def Object.instance? : Object → Option (Nat × Array Value)
  | .instance k s => some (k, s)
  | _ => none

/-! ## The slots of an instance -/

namespace ClassTable

variable {t t' : ClassTable} {c k : Nat} {s : Array Value} {f : Ident → Value} {x : Ident} {u : Value}

/-- An instance of class `k` with slots `s` has the variables `f`, and what no name leads to is nil. -/
structure Shows (t : ClassTable) (k : Nat) (s : Array Value) (f : Ident → Value) : Prop where
  lt : k < t.size
  ne : k ≠ missing
  slot : ∀ x i, t.ivarSlot? k x = some i → Object.slotAt s i = f x
  none : ∀ x, t.ivarSlot? k x = none → f x = .nil
  unused : ∀ i, (∀ x, t.ivarSlot? k x ≠ some i) → Object.slotAt s i = .nil

theorem mem_slots (h : t.ivarSlot? c x = some i) : (x, i) ∈ t.slots c := by
  rw [ivarSlot?_eq, List.lookup_eq_some_iff] at h
  obtain ⟨l, r, he, -⟩ := h
  exact he ▸ List.mem_append_right l List.mem_cons_self

/-- A slot that is given out is nil in the instances of all classes below. -/
theorem Shows.ivarSlot (h : t.Shows k s f) (hc : c < t.size) (hx : t.Clear c x) :
    (t.ivarSlot c x).2.Shows k s f := by
  cases hn : t.ivarSlot? c x with
  | some i => rwa [ivarSlot_of_some hn]
  | none =>
    have clear (hk : c ∈ t.chain k) (y : Ident) : t.ivarSlot? k y ≠ some (t.ivarCount c) := fun hy =>
      hx hn k h.lt hk _ (mem_slots hy) rfl
    refine ⟨(alike_ivarSlot t c x).size ▸ h.lt, h.ne, fun y i hy => ?_, fun y hy => ?_, fun i hi => ?_⟩
    · rw [ivarSlot?_ivarSlot hc hn, Option.or_eq_some_iff] at hy
      rcases hy with hy | ⟨hold, hy⟩
      · exact h.slot y i hy
      · split at hy
        · rename_i hnew
          cases hy
          rw [h.none y hold]
          exact h.unused _ (clear hnew.1)
        · cases hy
    · rw [ivarSlot?_ivarSlot hc hn, Option.or_eq_none_iff] at hy
      exact h.none y hy.1
    · exact h.unused i fun y hy => hi y (ivarSlot?_stable hy c x)

/-- A write changes the variable of that name alone. -/
theorem Shows.write (h : t.Shows k s f) (ha : t.Apart) (hx : t.ivarSlot? k x = some i) (u : Value) :
    t.Shows k (Object.setSlot s i u) (Function.update f x u) := by
  refine ⟨h.lt, h.ne, fun y j hy => ?_, fun y hy => ?_, fun j hj => ?_⟩
  · rw [Object.slotAt_setSlot]
    split
    · subst j
      obtain rfl : y = x := ha.apart k _ (mem_slots hy) _ (mem_slots hx) rfl
      rw [Function.update_self]
    · rename_i hne
      rw [Function.update_of_ne, h.slot y j hy]
      rintro rfl
      exact hne (Option.some.inj (hy.symm.trans hx))
  · rw [Function.update_of_ne, h.none y hy]
    rintro rfl
    rw [hx] at hy
    cases hy
  · rw [Object.slotAt_setSlot, if_neg, h.unused j hj]
    rintro rfl
    exact hj x hx

end ClassTable

/-! ## Accesses -/

/-- What was last written to each variable of each instance. -/
abbrev Ivars := Ref → Ident → Value

namespace Machine

variable {m m' : Machine} {w w' : Ivars} {v : Value} {k : Nat} {s : Array Value} {x : Ident}

/-- `v` refers to an instance of class `k` with slots `s`. -/
structure IsInstance (m : Machine) (v : Value) (k : Nat) (s : Array Value) : Prop where
  isRef : v.isRef = true
  read : m.heap.read v.toRef = .ok (.instance k s)

/-- A change by which no slot is given out and no instance is made or written to. -/
structure Aside (m m' : Machine) : Prop where
  heap : m'.heap.Inv
  size : m.classes.size ≤ m'.classes.size
  super : ∀ c < m.classes.size, (m'.classes.entry c).super = (m.classes.entry c).super
  slots : ∀ c, (m'.classes.entry c).ivarSlots = (m.classes.entry c).ivarSlots
  instances : ∀ v k s, m'.IsInstance v k s → m.IsInstance v k s

/-- What programs do to instances, one thing at a time. A slot that is given out on the way is not used
below. -/
inductive Access : Ivars × Machine → Ivars × Machine → Prop where
  | read {w : Ivars} {m : Machine} {v : Value} {k : Nat} {s : Array Value} {x : Ident} :
    m.IsInstance v k s → m.classes.Clear k x → Access (w, m) (w, after (Exec.getIvar v x) m)
  | write {w : Ivars} {m : Machine} {v : Value} {k : Nat} {s : Array Value} {x : Ident} (u : Value) :
    m.IsInstance v k s → m.classes.Clear k x →
    Access (w, m) (Function.update w v.toRef (Function.update (w v.toRef) x u), after (Exec.setIvar v x u) m)
  | create {w : Ivars} {m m' : Machine} {k : Nat} {v : Value} : k < m.classes.size → k ≠ ClassTable.missing →
    Exec.newObject k m = .ok v m' → Access (w, m) (Function.update w v.toRef fun _ => .nil, m')
  | other {w : Ivars} {m m' : Machine} : m.Aside m' → Access (w, m) (w, m')

/-- Every instance has what was last written, and different names have different slots. -/
structure Agrees (w : Ivars) (m : Machine) : Prop where
  heap : m.heap.Inv
  apart : m.classes.Apart
  shows : ∀ v k s, m.IsInstance v k s → m.classes.Shows k s (w v.toRef)

/-- A machine in which no instance variable was used yet. -/
structure Unused (m : Machine) : Prop where
  heap : m.heap.Inv
  slots : ∀ c, (m.classes.entry c).ivarSlots = []
  instances : ∀ v k s, m.IsInstance v k s → k < m.classes.size ∧ k ≠ ClassTable.missing ∧
    ∀ i, Object.slotAt s i = .nil

theorem Unused.agrees (h : m.Unused) : m.Agrees fun _ _ => .nil := by
  have hslots (c : Nat) : m.classes.slots c = [] := by
    rw [ClassTable.slots, List.flatMap_eq_nil_iff]
    exact fun e _ => h.slots e
  refine ⟨h.heap, ⟨fun c s hs => ?_, fun c s hs => ?_⟩, fun v k s hv => ?_⟩
  · rw [hslots] at hs
    cases hs
  · rw [hslots] at hs
    cases hs
  · obtain ⟨hlt, hne, hnil⟩ := h.instances v k s hv
    exact ⟨hlt, hne, fun _ i _ => hnil i, fun _ _ => rfl, fun i _ => hnil i⟩

/-! ### Reading and writing -/

theorem deref?_apply (h : m.IsInstance v k s) : Exec.deref? v m = .ok (some (.instance k s)) m := by
  unfold Exec.deref? Exec.deref Value.asRef
  rw [if_pos h.isRef, if_pos h.isRef]
  simp only [liftM, monadLift, MonadLift.monadLift, Exec.ofExcept, bind_apply, pure_apply, get_apply, h.read]

theorem ivarSlot_apply (hk : k ≠ ClassTable.missing) (x : Ident) (m : Machine) :
    Exec.ivarSlot k x m = .ok (m.classes.ivarSlot k x).1 { m with classes := (m.classes.ivarSlot k x).2 } := by
  unfold Exec.ivarSlot
  rw [if_neg hk]
  rfl

theorem getIvar_apply (h : m.IsInstance v k s) (hk : k ≠ ClassTable.missing) (x : Ident) :
    Exec.getIvar v x m = .ok (Object.slotAt s (m.classes.ivarSlot k x).1)
      { m with classes := (m.classes.ivarSlot k x).2 } := by
  simp only [Exec.getIvar, bind_apply, deref?_apply h, ivarSlot_apply hk, pure_apply]

theorem setIvar_apply (h : m.IsInstance v k s) (hk : k ≠ ClassTable.missing) (x : Ident) (u : Value) :
    Exec.setIvar v x u m = .ok true { m with
      classes := (m.classes.ivarSlot k x).2
      heap := m.heap.update v.toRef fun
        | .instance c slots => .instance c (Object.setSlot slots (m.classes.ivarSlot k x).1 u)
        | o => o } := by
  simp only [Exec.setIvar, bind_apply, deref?_apply h, ivarSlot_apply hk, Exec.setSlotOf]
  rw [if_neg (by omega)]
  rfl

/-! Attributes read and write in the same way. -/

theorem callAttr_read (v : Value) (base : Int) (x : Ident) (m : Machine) :
    (Exec.callAttr ⟨0, some 0⟩ v base 0 x false).run m = (.ok <$> Exec.getIvar v x : Exec _) m := by
  rfl

theorem callAttr_write (h : m.IsInstance v k s) (hk : k ≠ ClassTable.missing) {base : Int} {u : Value}
    (hu : m.context.stack.get base = .ok u) (x : Ident) :
    (Exec.callAttr (.exactly 1) v base 1 x true).run m = .ok (.ok u) (after (Exec.setIvar v x u) m) := by
  have hset := setIvar_apply h hk x u
  have hcheck : Exec.checkArity (.exactly 1) 1 = pure () := rfl
  rw [after_of_ok hset, Exec.callAttr, hcheck, pure_bind, if_pos rfl, run_liftM_bind, bind_apply]
  have hstack : Exec.stack m = .ok m.context.stack m := rfl
  rw [hstack]
  dsimp only
  rw [hu, show (liftM (Except.ok u) : Attempt Value) = pure u from rfl, pure_bind, run_liftM_bind, bind_apply, hset]
  rfl

theorem Agrees.ivarSlot (h : m.Agrees w) (hv : m.IsInstance v k s) (hx : m.classes.Clear k x) :
    { m with classes := (m.classes.ivarSlot k x).2 }.Agrees w where
  heap := h.heap
  apart := h.apart.ivarSlot (h.shows v k s hv).lt hx
  shows v' k' s' hv' := (h.shows v' k' s' ⟨hv'.isRef, hv'.read⟩).ivarSlot (h.shows v k s hv).lt hx

/-- The receiver has the value in the slot of the name, whether it had a slot before or not. -/
theorem Agrees.slotAt (h : m.Agrees w) (hv : m.IsInstance v k s) (hx : m.classes.Clear k x) :
    Object.slotAt s (m.classes.ivarSlot k x).1 = w v.toRef x :=
  ((h.ivarSlot hv hx).shows v k s ⟨hv.isRef, hv.read⟩).slot x _ (ClassTable.ivarSlot?_self (h.shows v k s hv).lt x)

theorem Agrees.write (h : m.Agrees w) (hv : m.IsInstance v k s) {i : Nat} (hi : m.classes.ivarSlot? k x = some i)
    (u : Value) : { m with heap := m.heap.update v.toRef fun
      | .instance c slots => .instance c (Object.setSlot slots i u)
      | o => o }.Agrees (Function.update w v.toRef (Function.update (w v.toRef) x u)) where
  heap := h.heap.update _ _
  apart := h.apart
  shows v' k' s' hv' := by
    have hread := hv'.read
    dsimp only at hread
    rw [Heap.read_update] at hread
    by_cases hsame : v'.toRef.page = v.toRef.page ∧ v'.toRef.cell = v.toRef.cell
    · rw [if_pos hsame] at hread
      cases hr : m.heap.read v'.toRef with
      | error d =>
        rw [hr] at hread
        cases hread
      | ok o =>
        obtain ⟨-, -, -, ho, hg⟩ := Heap.read_eq_ok.1 hr
        obtain ⟨-, -, -, ho', hg'⟩ := Heap.read_eq_ok.1 hv.read
        rw [hsame.1, hsame.2] at ho hg
        have he := Ref.toRef_ext hsame.1 hsame.2 (hg.symm.trans hg')
        cases ho.symm.trans ho'
        rw [hr] at hread
        cases hread
        rw [he, Function.update_self]
        exact (h.shows v k s hv).write h.apart hi u
    · rw [if_neg hsame] at hread
      rw [Function.update_of_ne fun he => hsame ⟨congrArg Ref.page he, congrArg Ref.cell he⟩]
      exact h.shows v' k' s' ⟨hv'.isRef, hread⟩

/-! ### Everything else -/

theorem Agrees.create (h : m.Agrees w) (hk : k < m.classes.size) (hne : k ≠ ClassTable.missing)
    (hrun : Exec.newObject k m = .ok v m') :
    m'.Agrees (Function.update w v.toRef fun _ => .nil) ∧ m'.classes = m.classes := by
  rcases Heap.alloc_cases h.heap (Object.instance k #[]) with ⟨v', h', halloc, hv', hp, hr⟩ | ⟨-, halloc⟩
  · simp only [Exec.newObject, Exec.alloc, Exec.onHeap, halloc] at hrun
    cases hrun
    refine ⟨⟨hp.inv, h.apart, fun u c s hu => ?_⟩, rfl⟩
    rcases hp.read_cases hu.read with ⟨hpage, hcell, ho⟩ | hold
    · obtain ⟨-, -, -, -, hg⟩ := Heap.read_eq_ok.1 hu.read
      obtain ⟨-, -, -, -, hg'⟩ := Heap.read_eq_ok.1 hr
      rw [hpage, hcell] at hg
      rw [Ref.toRef_ext hpage hcell (hg.symm.trans hg'), Function.update_self]
      cases ho
      exact ⟨hk, hne, fun _ _ _ => rfl, fun _ _ => rfl, fun _ _ => rfl⟩
    · rw [Function.update_of_ne]
      · exact h.shows u c s ⟨hu.isRef, hold⟩
      · intro he
        have ho := (Heap.read_eq_ok.1 hold).2.2.2.1
        rw [he, hp.vacant] at ho
        cases ho
  · simp only [Exec.newObject, Exec.alloc, Exec.onHeap, halloc] at hrun
    cases hrun

theorem Aside.ivarSlot? (ha : m.Aside m') (hk : k < m.classes.size) (x : Ident) :
    m'.classes.ivarSlot? k x = m.classes.ivarSlot? k x := by
  rw [ClassTable.ivarSlot?_eq, ClassTable.ivarSlot?_eq, ClassTable.slots_grown ha.size ha.super ha.slots hk]

theorem Agrees.aside (h : m.Agrees w) (ha : m.Aside m') : m'.Agrees w where
  heap := ha.heap
  apart := h.apart.grown ha.size ha.super ha.slots
  shows v k s hv := by
    have hs := h.shows v k s (ha.instances v k s hv)
    refine ⟨hs.lt.trans_le ha.size, hs.ne, fun x i hx => ?_, fun x hx => ?_, fun i hi => ?_⟩
    · exact hs.slot x i (ha.ivarSlot? hs.lt x ▸ hx)
    · exact hs.none x (ha.ivarSlot? hs.lt x ▸ hx)
    · exact hs.unused i fun x => ha.ivarSlot? hs.lt x ▸ hi x

/-! ### Definitions -/

section Definitions

open Keeping

theorem Aside.rfl (hi : m.heap.Inv) : m.Aside m := ⟨hi, le_rfl, fun _ _ => by rfl, fun _ => by rfl, fun _ _ _ h => h⟩

theorem aside_alloc {o : Object} (ho : ∀ k s, o ≠ .instance k s) : Kept m.Aside (Exec.alloc o) := by
  intro t ht
  unfold after Exec.alloc Exec.onHeap
  rcases Heap.alloc_cases ht.heap o with ⟨v, h', hrun, -, hp, -⟩ | ⟨-, hrun⟩
  · simp only [hrun]
    refine { ht with heap := hp.inv, instances := fun u k s hu => ?_ }
    rcases hp.read_cases hu.read with ⟨-, -, he⟩ | hold
    · exact absurd he.symm (ho k s)
    · exact ht.instances u k s ⟨hu.isRef, hold⟩
  · simp only [hrun]
    refine { ht with heap := Heap.inv_countAllocation ht.heap, instances := fun u k s hu => ?_ }
    refine ht.instances u k s ⟨hu.isRef, Eq.trans ?_ hu.read⟩
    unfold Heap.countAllocation
    split_ifs <;> rfl

theorem aside_modifyModule (c : Nat) {f : Module → Module} (hs : ∀ e, (f e).super = e.super)
    (hi : ∀ e, (f e).ivarSlots = e.ivarSlots) : Kept m.Aside (Exec.modifyModule c f) := fun t ht =>
  { heap := ht.heap
    size := (ClassTable.size_modify t.classes c f).symm ▸ ht.size
    super := fun e he => by
      rcases ClassTable.entry_modify t.classes c e f with h | h
      · exact (congrArg Module.super h).trans (ht.super e he)
      · exact (congrArg Module.super h).trans ((hs _).trans (ht.super e he))
    slots := fun e => by
      rcases ClassTable.entry_modify t.classes c e f with h | h
      · exact (congrArg Module.ivarSlots h).trans (ht.slots e)
      · exact (congrArg Module.ivarSlots h).trans ((hi _).trans (ht.slots e))
    instances := fun v k s h => ht.instances v k s ⟨h.isRef, h.read⟩ }

theorem aside_bumpVersion : Kept m.Aside Exec.bumpVersion := fun _ ht =>
  ⟨ht.heap, ht.size, ht.super, ht.slots, fun v k s h => ht.instances v k s ⟨h.isRef, h.read⟩⟩

theorem aside_push {e : Module} (he : e.ivarSlots = []) :
    Kept m.Aside (modify fun t => { t with classes := t.classes.push e }) := fun t ht =>
  { heap := ht.heap
    size := ht.size.trans ((Nat.le_succ _).trans_eq (Array.size_push _).symm)
    super := fun c hc => by
      refine Eq.trans (congrArg Module.super ?_) (ht.super c hc)
      exact (ClassTable.entry_push t.classes e c).trans (if_neg (hc.trans_le ht.size).ne)
    slots := fun c => by
      refine Eq.trans (congrArg Module.ivarSlots (ClassTable.entry_push t.classes e c)) ?_
      split
      · subst c
        rw [he, ← ht.slots, ClassTable.entry_of_le le_rfl]
        rfl
      · exact ht.slots c
    instances := fun v k s h => ht.instances v k s ⟨h.isRef, h.read⟩ }

/-- Opening a class, or making it, gives out no slots. -/
theorem aside_defineModule (hi : m.heap.Inv) (parent : Nat) (name : Ident) (super : Option Nat) (isModule : Bool) :
    m.Aside (after (Exec.defineModule parent name super isModule) m) := by
  refine Kept.bind (P := m.Aside) ?_ (fun r => ?_) m (.rfl hi)
  · refine (kept_get.bind fun t => kept_pure _).bind fun e => ?_
    split
    · refine (kept_deref? _).bind fun o => ?_
      split <;> exact kept_pure _
    · exact kept_pure _
  split
  · exact kept_pure _
  refine Kept.bind ?_ fun c => (kept_get.bind fun t => kept_pure _).bind fun e => Kept.bind ?_ fun _ => kept_pure _
  · refine kept_get.bind fun t => Kept.bind (aside_alloc (by simp)) fun self => ?_
    exact Kept.bind (aside_push rfl) fun _ => kept_pure _
  · refine Kept.bind (aside_modifyModule parent (f := fun k => { k with consts := bindName name e.self k.consts })
      (fun _ => rfl) fun _ => rfl) fun _ => aside_bumpVersion

end Definitions

/-! ### Runs -/

/-- Names keep the slots they have. -/
def KeepsSlots (m m' : Machine) : Prop :=
  ∀ c x i, m.classes.ivarSlot? c x = some i → m'.classes.ivarSlot? c x = some i

theorem Access.keeps (h : Access (w, m) (w', m')) (ha : m.Agrees w) : m'.Agrees w' ∧ m.KeepsSlots m' := by
  cases h with
  | @read _ _ v k s x hv hx =>
    have hne := (ha.shows v k s hv).ne
    rw [after_of_ok (getIvar_apply hv hne x)]
    exact ⟨ha.ivarSlot hv hx, fun _ _ _ hd => ClassTable.ivarSlot?_stable hd k x⟩
  | @write _ _ v k s x u hv hx =>
    have hs := ha.shows v k s hv
    rw [after_of_ok (setIvar_apply hv hs.ne x u)]
    refine ⟨?_, fun _ _ _ hd => ClassTable.ivarSlot?_stable hd k x⟩
    exact (ha.ivarSlot hv hx).write ⟨hv.isRef, hv.read⟩ (ClassTable.ivarSlot?_self hs.lt x) u
  | create hk hne hrun =>
    obtain ⟨hagrees, hclasses⟩ := ha.create hk hne hrun
    exact ⟨hagrees, fun c x i hd => hclasses ▸ hd⟩
  | other ho =>
    refine ⟨ha.aside ho, fun c x i hd => ?_⟩
    rcases Nat.lt_or_ge c m.classes.size with hc | hc
    · rwa [ho.ivarSlot? hc]
    · rw [ClassTable.ivarSlot?_eq, ClassTable.slots, ClassTable.chain_of_le hc] at hd
      cases hd

open Relation (ReflTransGen)

theorem keeps_accesses (h : ReflTransGen Access (w, m) (w', m')) (ha : m.Agrees w) :
    m'.Agrees w' ∧ m.KeepsSlots m' := by
  generalize hp : (w', m') = p at h
  induction h generalizing w' m' with
  | refl =>
    cases hp
    exact ⟨ha, fun _ _ _ hd => hd⟩
  | @tail q _ _ hstep ih =>
    obtain ⟨w₁, m₁⟩ := q
    subst hp
    obtain ⟨hagrees, hkeeps⟩ := ih rfl
    obtain ⟨hagrees', hkeeps'⟩ := hstep.keeps hagrees
    exact ⟨hagrees', fun c x i hd => hkeeps' c x i (hkeeps c x i hd)⟩

/-- What is read through a name or an attribute is what was last written, or nil; different names have
different slots in each class, and the slot of a name stays. -/
theorem ivars_exact {m₀ : Machine} (h₀ : m₀.Unused) (h : ReflTransGen Access ((fun _ _ => .nil), m₀) (w, m)) :
    (∀ v k s x, m.IsInstance v k s → m.classes.Clear k x →
      (∃ m', Exec.getIvar v x m = .ok (w v.toRef x) m' ∧
        ∀ base, (Exec.callAttr ⟨0, some 0⟩ v base 0 x false).run m = .ok (.ok (w v.toRef x)) m') ∧
      ∀ u, ∃ m', Exec.setIvar v x u m = .ok true m' ∧ ∀ base, m.context.stack.get base = .ok u →
        (Exec.callAttr (.exactly 1) v base 1 x true).run m = .ok (.ok u) m') ∧
    (∀ c x y i, m.classes.ivarSlot? c x = some i → m.classes.ivarSlot? c y = some i → x = y) ∧
    ∀ w' m', ReflTransGen Access (w, m) (w', m') → m.KeepsSlots m' := by
  obtain ⟨ha, -⟩ := keeps_accesses h h₀.agrees
  refine ⟨fun v k s x hv hx => ⟨?_, fun u => ?_⟩, fun c x y i hx hy => ?_, fun w' m' h' => (keeps_accesses h' ha).2⟩
  · have hget := getIvar_apply hv (ha.shows v k s hv).ne x
    rw [ha.slotAt hv hx] at hget
    exact ⟨_, hget, fun base => by rw [callAttr_read, map_apply, hget]⟩
  · have hset := setIvar_apply hv (ha.shows v k s hv).ne x u
    refine ⟨_, hset, fun base hu => ?_⟩
    rw [callAttr_write hv (ha.shows v k s hv).ne hu, after_of_ok hset]
  · exact ha.apart.apart c _ (ClassTable.mem_slots hx) _ (ClassTable.mem_slots hy) rfl

theorem isInstance_iff : m.IsInstance v k s ↔
    v.isRef = true ∧ (m.heap.read v.toRef).toOption.bind Object.instance? = some (k, s) := by
  refine ⟨fun h => ⟨h.isRef, by rw [h.read]; rfl⟩, fun h => ⟨h.1, ?_⟩⟩
  cases hr : m.heap.read v.toRef with
  | error d =>
    rw [hr] at h
    cases h.2
  | ok o =>
    rw [hr] at h
    cases o with
    | «instance» c t =>
      cases h.2
      rfl
    | _ => cases h.2

instance (m : Machine) (v : Value) (k : Nat) (s : Array Value) : Decidable (m.IsInstance v k s) :=
  decidable_of_iff _ isInstance_iff.symm

theorem unused_blank (options : Options) : (blank options).Unused where
  heap := (sound_blank options).heap
  slots c := by rw [ClassTable.entry_of_le (show (blank options).classes.size ≤ c from Nat.zero_le c)]; rfl
  instances v k s h := nomatch h.read

/-! Classes 0 and 1, which is under it, and an instance of each. -/

def upper : Value := .ofRef (.make 0 2 0)

def lower : Value := .ofRef (.make 0 3 0)

def oneClass : Machine := after (Exec.defineModule 0 ⟨1⟩ none false) (blank {})

def twoClasses : Machine := after (Exec.defineModule 0 ⟨2⟩ none false) oneClass

def oneInstance : Machine := after (Exec.newObject 0) twoClasses

def twoInstances : Machine := after (Exec.newObject 1) oneInstance

/-- The superclass comes first. -/
def superclassFirst : Machine :=
  after (Exec.setIvar lower ⟨4⟩ (.ofInt 2)) (after (Exec.setIvar upper ⟨3⟩ (.ofInt 1)) twoInstances)

theorem accesses_superclassFirst : ∃ w, ReflTransGen Access ((fun _ _ => .nil), blank {}) (w, superclassFirst) ∧
    w upper.toRef ⟨3⟩ = .ofInt 1 ∧ w lower.toRef ⟨3⟩ = .nil ∧ w lower.toRef ⟨4⟩ = .ofInt 2 := by
  have hone : (blank {}).Aside oneClass := aside_defineModule (sound_blank {}).heap 0 ⟨1⟩ none false
  have htwo : oneClass.Aside twoClasses := aside_defineModule hone.heap 0 ⟨2⟩ none false
  have hupper : Exec.newObject 0 twoClasses = .ok upper oneInstance := eq_ok_of_result? (by decide +kernel)
  have hlower : Exec.newObject 1 oneInstance = .ok lower twoInstances := eq_ok_of_result? (by decide +kernel)
  have h₃ : twoInstances.IsInstance upper 0 #[] := by decide +kernel
  have h₄ : (after (Exec.setIvar upper ⟨3⟩ (.ofInt 1)) twoInstances).IsInstance lower 1 #[] := by decide +kernel
  refine ⟨_, .tail (.tail (.tail (.tail (.tail (.tail .refl (.other hone)) (.other htwo))
    (.create ?_ ?_ hupper)) (.create ?_ ?_ hlower)) (.write _ h₃ ?_)) (.write _ h₄ ?_), ?_⟩
  · decide +kernel
  · decide +kernel
  · decide +kernel
  · decide +kernel
  · decide +kernel
  · decide +kernel
  · decide +kernel

/-- The instance of the lower class has variable 4 and not variable 3. -/
theorem ivars_superclassFirst : (∃ m', Exec.getIvar upper ⟨3⟩ superclassFirst = .ok (.ofInt 1) m') ∧
    (∃ m', Exec.getIvar lower ⟨3⟩ superclassFirst = .ok .nil m') ∧
    ∃ m', Exec.getIvar lower ⟨4⟩ superclassFirst = .ok (.ofInt 2) m' := by
  obtain ⟨w, hrun, h₁, h₂, h₃⟩ := accesses_superclassFirst
  obtain ⟨hread, -⟩ := ivars_exact (unused_blank {}) hrun
  have hupper : superclassFirst.IsInstance upper 0 #[.ofInt 1] := by decide +kernel
  have hlower : superclassFirst.IsInstance lower 1 #[.nil, .ofInt 2] := by decide +kernel
  obtain ⟨⟨m₁, he₁, -⟩, -⟩ := hread upper 0 _ ⟨3⟩ hupper (by decide +kernel)
  obtain ⟨⟨m₂, he₂, -⟩, -⟩ := hread lower 1 _ ⟨3⟩ hlower (by decide +kernel)
  obtain ⟨⟨m₃, he₃, -⟩, -⟩ := hread lower 1 _ ⟨4⟩ hlower (by decide +kernel)
  exact ⟨⟨m₁, h₁ ▸ he₁⟩, ⟨m₂, h₂ ▸ he₂⟩, ⟨m₃, h₃ ▸ he₃⟩⟩

/-- The lower class comes first, and the slot of its variable 4 is given out again to variable 3. -/
def subclassFirst : Machine :=
  after (Exec.setIvar upper ⟨3⟩ (.ofInt 1)) (after (Exec.setIvar lower ⟨4⟩ (.ofInt 2)) twoInstances)

/-- Without the condition a variable that was never written has the value of another one. -/
theorem ivars_subclassFirst : ∃ m', Exec.getIvar lower ⟨3⟩ subclassFirst = .ok (.ofInt 2) m' :=
  ⟨_, eq_ok_of_result? (by decide +kernel)⟩

end Machine

end RubyMachine
