import RubyMachine.Machine.Scopes
import RubyMachine.Proofs.Computation
import RubyMachine.Proofs.Heap.Use
import RubyMachine.Proofs.Value.Kinds

/-! The memory of frames: slots of the stack and words of scopes, and what reading and writing them gives. -/

namespace RubyMachine

/-! ## Words that name frames and scopes -/

namespace Value

/-- The number of local slots in a flag word. -/
def slots (v : Value) : Nat := (UInt64.ofInt v.toInt >>> 8).toNat

/-- Whether a word is a link that is good on one stack only. -/
def isLocal (v : Value) : Bool := v.isFrame || v.isBlock

variable {v : Value}

theorem isFrame_frameAt (f : Nat) : (frameAt f).isFrame = Bool.true := by
  have hp : (UInt64.ofNat f &&& payloadMask).toNat < 2 ^ 48 := payload_lt ⟨UInt64.ofNat f⟩
  rw [isFrame, hasTag, frameAt, ofFrame, tag_tagged (show (quietNaN ||| frameTag).toNat = 2 ^ 48 * 0x7FFD by decide)
    (by decide) hp, beq_self_eq_true]

theorem toFrame_frameAt {f : Nat} (hf : f < 2 ^ 48) : (frameAt f).toFrame = f := by
  have hp : (UInt64.ofNat f &&& payloadMask).toNat = f := by
    rw [UInt64.toNat_and, show payloadMask.toNat = 2 ^ 48 - 1 by decide, Nat.and_two_pow_sub_one_eq_mod,
      UInt64.toNat_ofNat']
    omega
  have hlt : (UInt64.ofNat f &&& payloadMask).toNat < 2 ^ 48 := payload_lt ⟨UInt64.ofNat f⟩
  rw [toFrame, frameAt, ofFrame, payload_tagged (show (quietNaN ||| frameTag).toNat = 2 ^ 48 * 0x7FFD by decide) hlt, hp]

theorem isNil_of_hasTag {t : UInt64} (h : v.hasTag t = Bool.true) (ht : quietNaN ||| t ≠ quietNaN ||| specialTag) :
    v.isNil = Bool.false := by
  rw [isNil, beq_eq_false_iff_ne]
  rintro rfl
  have hs : nil.hasTag specialTag = Bool.true := by decide
  rw [hasTag_of_ne h ht] at hs
  cases hs

theorem isNil_of_isRef (h : v.isRef = Bool.true) : v.isNil = Bool.false := isNil_of_hasTag h (by decide)

theorem isNil_frameAt (f : Nat) : (frameAt f).isNil = Bool.false := isNil_of_hasTag (isFrame_frameAt f) (by decide)

theorem isFrame_of_isRef (h : v.isRef = Bool.true) : v.isFrame = Bool.false := hasTag_of_ne h (by decide)

theorem isBlock_of_isRef (h : v.isRef = Bool.true) : v.isBlock = Bool.false := hasTag_of_ne h (by decide)

theorem isLocal_of_isRef (h : v.isRef = Bool.true) : v.isLocal = Bool.false := by
  rw [isLocal, isFrame_of_isRef h, isBlock_of_isRef h, Bool.or_self]

theorem isRef_of_isFrame (h : v.isFrame = Bool.true) : v.isRef = Bool.false := hasTag_of_ne h (by decide)

theorem isLocal_of_isFixnum (h : v.isFixnum = Bool.true) : v.isLocal = Bool.false := by
  rw [isLocal, show v.isFrame = Bool.false from hasTag_of_ne h (by decide),
    show v.isBlock = Bool.false from hasTag_of_ne h (by decide), Bool.or_self]

theorem isLocal_of_isSymbol (h : v.isSymbol = Bool.true) : v.isLocal = Bool.false := by
  rw [isLocal, show v.isFrame = Bool.false from hasTag_of_ne h (by decide),
    show v.isBlock = Bool.false from hasTag_of_ne h (by decide), Bool.or_self]

theorem isLocal_nil : nil.isLocal = Bool.false := by decide

end Value

/-! ## The stack -/

namespace Stack

theorem getD_store (a : Array Value) (i j : Nat) (v : Value) :
    (store a i v).getD j .zero = if j = i then v else a.getD j .zero := by
  simp only [store, Array.getD_eq_getD_getElem?]
  split_ifs with hi he he
  · rw [he, Array.getElem?_setIfInBounds_self_of_lt hi, Option.getD_some]
  · rw [Array.getElem?_setIfInBounds_ne fun h => he h.symm]
  · rw [he, Array.getElem?_push, if_pos (by simp; omega), Option.getD_some]
  · rw [Array.getElem?_push, Array.size_append, Array.size_replicate, if_neg (by omega), Array.getElem?_append,
      Array.getElem?_replicate]
    split_ifs with h h'
    · rfl
    · rw [Array.getElem?_eq_none (Nat.not_lt.1 h)]
      rfl
    · rw [Array.getElem?_eq_none (Nat.not_lt.1 h)]

theorem getD_wipe (a : Array Value) {i j : Nat} (v : Value) (n : Nat) (hj : j < i) :
    (wipe a i v n).getD j .zero = a.getD j .zero := by
  induction n generalizing a i with
  | zero => rfl
  | succ n ih =>
    rw [wipe, ih _ (hj.trans (Nat.lt_succ_self i))]
    simp only [Array.getD_eq_getD_getElem?, Array.getElem?_setIfInBounds_ne hj.ne']

theorem checkWord_ok {s : Stack} {i : Int} (h0 : 0 ≤ i) (hi : i < s.capacity) : s.checkWord i = .ok () :=
  if_neg (by omega)

theorem word?_ok {s : Stack} {i : Int} (h0 : 0 ≤ i) (hi : i < s.capacity) :
    s.word? i = .ok (s.slots.getD i.toNat .zero) := by
  rw [word?, checkWord_ok h0 hi]
  rfl

end Stack

namespace Machine

/-- The word in a slot of the running stack. -/
def slot (m : Machine) (i : Nat) : Value := m.context.stack.slots.getD i .zero

/-- The scope behind a reference. -/
def scope? (m : Machine) (v : Value) : Option Scope :=
  if v.isRef then
    match m.heap.read v.toRef with
    | .ok (.scope s) => some s
    | _ => none
  else none

variable {m m' : Machine} {v w : Value} {s : Scope} {i : Nat}

theorem scope?_eq_some : m.scope? v = some s ↔ v.isRef = true ∧ m.heap.read v.toRef = .ok (.scope s) := by
  unfold scope?
  constructor
  · intro h
    split at h
    · split at h
      · rename_i hv _ _ hr
        exact ⟨hv, Option.some.inj h ▸ hr⟩
      · cases h
    · cases h
  · rintro ⟨hv, hr⟩
    rw [if_pos hv, hr]

theorem scope?_congr (hh : m'.heap = m.heap) (v : Value) : m'.scope? v = m.scope? v := by
  rw [scope?, scope?, hh]

end Machine

namespace Scope

/-- A word of a scope, counted like those of a frame. -/
def word (s : Scope) (i : Nat) : Value := s.words.getD (s.base + i) .nil

/-- A local slot of a scope. -/
def slot (s : Scope) (i : Nat) : Value := s.words.getD (i + 1) .nil

/-- The receiver that stands above the local slots. -/
def receiver (s : Scope) : Value := s.words.getD (s.base - 1) .nil

/-- The number of local slots, as the flag word gives it. -/
def slotCount (s : Scope) : Nat := (s.word 2).slots

def put (s : Scope) (k : Nat) (v : Value) : Scope := { s with words := s.words.setIfInBounds k v }

/-- The object of a scope after a word was set in it. Other objects have no words. -/
def putObject (k : Nat) (v : Value) : Object → Object
  | .scope s => .scope (s.put k v)
  | o => o

variable {s : Scope} {v : Value} {i j k : Nat}

@[simp] theorem base_put : (s.put k v).base = s.base := rfl

@[simp] theorem size_put : (s.put k v).words.size = s.words.size := Array.size_setIfInBounds

theorem getD_put (hk : k < s.words.size) :
    (s.put k v).words.getD j .nil = if j = k then v else s.words.getD j .nil := by
  simp only [put, Array.getD_eq_getD_getElem?]
  split_ifs with h
  · rw [h, Array.getElem?_setIfInBounds_self_of_lt hk, Option.getD_some]
  · rw [Array.getElem?_setIfInBounds_ne fun he => h he.symm]

end Scope

/-! ## Reading -/

namespace Exec

variable {m : Machine} {v : Value} {s : Scope}

theorem word_apply {i : Nat} (hi : i < m.context.stack.capacity) : word i m = .ok (m.slot i) m := by
  have hw := Stack.word?_ok (s := m.context.stack) (i := i) (by omega) (by omega)
  show (liftM (m.context.stack.word? i) : Exec Value) m = _
  rw [hw]
  rfl

/-- The same for a slot that is given as a place and a distance. -/
theorem word_apply_of {i : Int} {k : Nat} (h : i = k) (hk : k < m.context.stack.capacity) :
    word i m = .ok (m.slot k) m :=
  h ▸ word_apply hk

theorem deref_apply {o : Object} (hv : v.isRef = true) (hr : m.heap.read v.toRef = .ok o) : deref v m = .ok o m := by
  unfold deref Value.asRef
  rw [if_pos hv]
  show (liftM (m.heap.read v.toRef) : Exec Object) m = _
  rw [hr]
  rfl

theorem deref?_of_read {o : Object} (hv : v.isRef = true) (hr : m.heap.read v.toRef = .ok o) :
    deref? v m = .ok (some o) m := by
  rw [deref?, if_pos hv, bind_of_ok (deref_apply hv hr)]
  rfl

theorem asArray?_apply {xs : Array Value} (hv : v.isRef = true) (hr : m.heap.read v.toRef = .ok (.array xs)) :
    asArray? v m = .ok (some xs) m := by
  rw [asArray?, bind_of_ok (deref?_of_read hv hr)]
  rfl

theorem asString?_apply {t : String} (hv : v.isRef = true) (hr : m.heap.read v.toRef = .ok (.string t)) :
    asString? v m = .ok (some t) m := by
  rw [asString?, bind_of_ok (deref?_of_read hv hr)]
  rfl

theorem asDict?_apply {d : Dict} (hv : v.isRef = true) (hd : m.heap.read v.toRef = .ok (.dict d)) :
    asDict? v m = .ok (some d) m := by
  rw [asDict?, bind_of_ok (deref?_of_read hv hd)]
  rfl

theorem asScope_apply (hs : m.scope? v = some s) : asScope v m = .ok s m := by
  obtain ⟨hv, hr⟩ := Machine.scope?_eq_some.1 hs
  rw [asScope, bind_of_ok (deref_apply hv hr)]
  rfl

theorem wordAt_heap {i : Int} {k : Nat} (hs : m.scope? v = some s) (hk : s.base + i = k) (hlt : k < s.words.size) :
    (Env.heap v).wordAt i m = .ok (s.words.getD k .nil) m := by
  have hget : s.words[(s.base + i).toNat]? = some (s.words.getD k .nil) := by
    rw [hk, Int.toNat_natCast, Array.getElem?_eq_getElem hlt, Array.getD_eq_getD_getElem?,
      Array.getElem?_eq_getElem hlt, Option.getD_some]
  rw [Env.wordAt, bind_of_ok (asScope_apply hs)]
  dsimp only
  rw [if_neg (by omega), hget]
  rfl

theorem slotCount_of {e : Env} {v : Value} (hw : e.wordAt Frame.flagWord m = .ok v m) (hv : v.isFixnum = true) :
    e.slotCount m = .ok (v.slots : Int) m := by
  rw [Env.slotCount, bind_of_ok hw, Value.asFixnum, if_pos hv]
  rfl

end Exec

/-! ## Writing -/

namespace Machine

/-- The machine with another heap. -/
def withHeap (m : Machine) (h : Heap Object) : Machine := { m with heap := h }

/-- The machine with another stack. -/
def withStack (m : Machine) (s : Stack) : Machine := { m with context.stack := s }

/-- The machine with another word in a slot of the running stack. -/
def poke (m : Machine) (i : Nat) (v : Value) : Machine := { m with context.stack := m.context.stack.poke i v }

variable {m m' m'' : Machine} {v w : Value} {s s' : Scope}

@[simp] theorem slot_poke (m : Machine) (i j : Nat) (v : Value) :
    (m.poke i v).slot j = if j = i then v else m.slot j := Stack.getD_store _ _ _ _

/-- A machine with another scope in one place; references to other places give what they gave. -/
structure Rewritten (m m' : Machine) (v : Value) (s : Scope) : Prop where
  rest : m'.withHeap m.heap = m
  size : m'.heap.pages.size = m.heap.pages.size
  inv : m'.heap.Inv
  here : m'.scope? v = some s
  other : ∀ w : Value, w.toRef ≠ v.toRef → m'.heap.read w.toRef = m.heap.read w.toRef

theorem context_of_withHeap {h : Heap Object} (hm : m'.withHeap h = m) : m'.context = m.context := by
  rw [← hm]
  rfl

theorem Rewritten.context (h : Rewritten m m' v s) : m'.context = m.context := context_of_withHeap h.rest

theorem Rewritten.scope?_other (h : Rewritten m m' v s) (hw : w.toRef ≠ v.toRef) : m'.scope? w = m.scope? w := by
  rw [scope?, scope?, h.other w hw]

/-- A reference that is good leads to the same cell as another one only when both are the same. -/
theorem toRef_eq_of_read {o o' : Object} (hv : m.heap.read v.toRef = .ok o) (hw : m.heap.read w.toRef = .ok o')
    (hp : w.toRef.page = v.toRef.page) (hc : w.toRef.cell = v.toRef.cell) : w.toRef = v.toRef := by
  obtain ⟨-, -, -, -, hg⟩ := Heap.read_eq_ok.1 hv
  obtain ⟨-, -, -, -, hg'⟩ := Heap.read_eq_ok.1 hw
  rw [hp, hc] at hg'
  exact Ref.toRef_ext hp hc (hg'.symm.trans hg)

theorem rewritten_update (hi : m.heap.Inv) (hs : m.scope? v = some s) {f : Object → Object}
    (hf : f (.scope s) = .scope s') : Rewritten m (m.withHeap (m.heap.update v.toRef f)) v s' where
  rest := rfl
  size := Heap.size_update _ _ _
  inv := hi.update _ _
  here := by
    obtain ⟨hv, hr⟩ := scope?_eq_some.1 hs
    refine scope?_eq_some.2 ⟨hv, ?_⟩
    rw [withHeap, Heap.read_update, if_pos ⟨rfl, rfl⟩, hr]
    exact congrArg _ hf
  other w hw := by
    obtain ⟨-, hr⟩ := scope?_eq_some.1 hs
    rw [withHeap, Heap.read_update]
    split_ifs with he
    · cases hr' : m.heap.read w.toRef with
      | ok o => exact absurd (toRef_eq_of_read hr hr' he.1 he.2) hw
      | error d => rfl
    · rfl

end Machine

namespace Exec

variable {m : Machine} {v x : Value} {s : Scope}

theorem setWord_apply {i : Int} {k : Nat} (hi : i = k) (hk : k < m.context.stack.capacity) :
    setWord i v m = .ok () (m.poke k v) := by
  have hc := Stack.checkWord_ok (s := m.context.stack) (i := i) (by omega) (by omega)
  show (do liftM (m.context.stack.checkWord i); modifyStack (·.poke i.toNat v) : Exec Unit) m = _
  rw [hc, hi]
  rfl

theorem setWordAt_heap {i : Int} {k : Nat} (hi : m.heap.Inv) (hs : m.scope? v = some s) (hk : s.base + i = k)
    (hlt : k < s.words.size) :
    ∃ m', (Env.heap v).setWordAt i x m = .ok () m' ∧ m.Rewritten m' v (s.put k x) := by
  refine ⟨_, ?_, Machine.rewritten_update (f := Scope.putObject k x) hi hs rfl⟩
  rw [Env.setWordAt, bind_of_ok (asScope_apply hs)]
  dsimp only
  rw [if_neg (by omega), hk, Int.toNat_natCast]
  rfl

theorem update_apply (v : Value) (f : Object → Object) (m : Machine) :
    update v f m = .ok () (m.withHeap (m.heap.update v.toRef f)) := rfl

/-- A change of an object is seen by all references to its cell. -/
theorem read_after_update (v : Value) (f : Object → Object) (m : Machine) (u : Value) :
    (after (update v f) m).heap.read u.toRef =
      if u.toRef.page = v.toRef.page ∧ u.toRef.cell = v.toRef.cell then (m.heap.read u.toRef).map f
      else m.heap.read u.toRef :=
  Heap.read_update m.heap v.toRef u.toRef f

end Exec

/-! ## New objects -/

/-- The heap `h` is that of the machine with one more object, behind `v`. -/
structure Machine.Allots (m : Machine) (h : Heap Object) (v : Value) (o : Object) : Prop where
  isRef : v.isRef = true
  inv : h.Inv
  read : h.read v.toRef = .ok o
  kept : ∀ r o', m.heap.read r = .ok o' → h.read r = .ok o'
  vacant : ∀ o', m.heap.read v.toRef ≠ .ok o'
  size : m.heap.pages.size ≤ h.pages.size
  grows : h.pages.size ≤ m.heap.pages.size + 1

/-- The computation ends with what `P` says, unless the heap is full. Before it has `n` pages, that is: with room for so
many it ends well. -/
def Exec.Ends {α : Type} (x : Exec α) (m : Machine) (n : Nat) (P : α → Machine → Prop) : Prop :=
  (∃ a m', x m = .ok a m' ∧ P a m') ∨
    ∃ m', x m = .error (.heapExhausted m'.heap.pages.size) m' ∧ Heap.maxPages ≤ m'.heap.pages.size ∧ m'.heap.pages.size < n

namespace Exec

variable {α β : Type} {x : Exec α} {f : α → Exec β} {m m' : Machine} {a : α} {n n' : Nat} {P P' : α → Machine → Prop}
  {Q : β → Machine → Prop}

namespace Ends

theorem of_ok (hx : x m = .ok a m') (hp : P a m') : Ends x m n P := .inl ⟨a, m', hx, hp⟩

theorem step (hx : x m = .ok a m') (hf : Ends (f a) m' n Q) : Ends (x >>= f) m n Q := by
  rwa [Ends, bind_of_ok hx]

theorem bind (hx : Ends x m n P) (hf : ∀ a m', P a m' → Ends (f a) m' n Q) : Ends (x >>= f) m n Q := by
  rcases hx with ⟨a, m', hrun, hp⟩ | ⟨m', hrun, hfull⟩
  · exact step hrun (hf a m' hp)
  · exact .inr ⟨m', bind_of_error hrun, hfull⟩

theorem imp (hx : Ends x m n P) (h : ∀ a m', P a m' → P' a m') : Ends x m n P' :=
  hx.imp_left fun ⟨a, m', hrun, hp⟩ => ⟨a, m', hrun, h a m' hp⟩

theorem and (hx : Ends x m n P) (hx' : Ends x m n P') : Ends x m n fun a m' => P a m' ∧ P' a m' := by
  rcases hx with ⟨a, m', hrun, hp⟩ | hfull
  · refine .of_ok hrun ⟨hp, ?_⟩
    rcases hx' with ⟨a', m'', hrun', hp'⟩ | ⟨m'', hrun', -⟩ <;> cases hrun.symm.trans hrun'
    exact hp'
  · exact .inr hfull

theorem of_le (hx : Ends x m n P) (hn : n ≤ n') : Ends x m n' P :=
  hx.imp_right fun ⟨m', hrun, hfull, hlt⟩ => ⟨m', hrun, hfull, hlt.trans_le hn⟩

/-- With room on the heap the computation does end with what `P` says. -/
theorem exists_ok (hx : Ends x m n P) (hn : n ≤ Heap.maxPages) : ∃ a m', x m = .ok a m' ∧ P a m' :=
  hx.resolve_right fun ⟨_, _, hfull, hlt⟩ => absurd (hlt.trans_le hn) (Nat.not_lt.2 hfull)

theorem of_run (h : Ends x m n P) (hx : x m = .ok a m') : P a m' := by
  rcases h with ⟨a', m'', hrun, hp⟩ | ⟨m'', hrun, -⟩ <;> cases hx.symm.trans hrun
  exact hp

end Ends

theorem alloc_apply (hi : m.heap.Inv) (o : Object) :
    (∃ v h, alloc o m = .ok v (m.withHeap h) ∧ m.Allots h v o) ∨
    Heap.maxPages ≤ m.heap.pages.size ∧
      alloc o m = .error (.heapExhausted m.heap.pages.size) (m.withHeap m.heap.countAllocation) := by
  rcases Heap.alloc_cases hi o with ⟨v, h, hrun, hv, hp, hread⟩ | ⟨hmax, hrun⟩
  · refine .inl ⟨v, h, ?_, hv, hp.inv, hread, fun r o' => hp.read_other, fun o' ho => ?_, hp.size, hp.grows⟩
    · simp only [alloc, onHeap, hrun, Machine.withHeap]
    · obtain ⟨-, -, -, ho, -⟩ := Heap.read_eq_ok.1 ho
      rw [hp.vacant] at ho
      cases ho
  · exact .inr ⟨hmax, by simp only [alloc, onHeap, hrun]; rfl⟩

/-- A new object takes one page at most. -/
theorem alloc_ends {P : Value → Machine → Prop} {o : Object} (hi : m.heap.Inv) (hn : m.heap.pages.size < n)
    (h : ∀ v h, m.Allots h v o → P v (m.withHeap h)) : Ends (alloc o) m n P := by
  rcases alloc_apply hi o with ⟨v, h', hrun, hv⟩ | ⟨hmax, hrun⟩
  · exact .of_ok hrun (h v h' hv)
  · have hsize : (m.withHeap m.heap.countAllocation).heap.pages.size = m.heap.pages.size :=
      congrArg Array.size (Heap.countAllocation_pages m.heap)
    exact .inr ⟨_, by rw [hrun, hsize], hsize.ge.trans' hmax, hsize.trans_lt hn⟩

end Exec

end RubyMachine
