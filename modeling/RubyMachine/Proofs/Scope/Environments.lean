import Mathlib.Data.List.Nodup
import RubyMachine.Machine.Sends
import RubyMachine.Proofs.Scope.Moves

/-! Environments of running code, whether they are frames of the stack or scopes on the heap: their words and locals, and
the way from one environment out to another that encloses it. -/

namespace RubyMachine

open Exec

/-- The word that names an environment. -/
def Env.name : Env → Value
  | .stack f => .frameAt f
  | .heap v => v

namespace Machine

variable {m m' : Machine} {e e' e₁ e₂ : Env} {f k n n' : Nat} {v : Value} {s : Scope} {fn : FnId}
  {seq seq' : Code.Sequence}

/-! ## Words and locals -/

/-- A control word of an environment. -/
def wordOf (m : Machine) : Env → Nat → Value
  | .stack f, k => m.slot (f + k)
  | .heap v, k => ((m.scope? v).map fun s => s.word k).getD .nil

/-- The number of local slots of an environment. -/
def slotsOf (m : Machine) (e : Env) : Nat := (m.wordOf e 2).slots

def localOf (m : Machine) : Env → Nat → Value
  | .stack f, i => m.slot (f - m.slotsAt f - 1 + i)
  | .heap v, i => ((m.scope? v).map fun s => s.slot i).getD .nil

theorem wordOf_heap (hs : m.scope? v = some s) (k : Nat) : m.wordOf (.heap v) k = s.word k := by
  rw [wordOf, hs]
  rfl

theorem slotsOf_heap (hs : m.scope? v = some s) : m.slotsOf (.heap v) = s.slotCount := by
  rw [slotsOf, wordOf_heap hs, Scope.slotCount]

theorem localOf_heap (hs : m.scope? v = some s) (i : Nat) : m.localOf (.heap v) i = s.slot i := by
  rw [localOf, hs]
  rfl

/-- An environment that code can run in: a frame on the live stack that has not been moved, or a scope that is laid out
like one. -/
inductive Live (m : Machine) : Env → Prop
  | stack {f : Nat} : m.Placed f → m.isCode f = true → (Value.frameAt f).toFrame = f → (m.slot (f + 1)).isRef = false →
      f + 8 ≤ m.context.stack.len → Live m (.stack f)
  | heap {v : Value} {s : Scope} : m.scope? v = some s → s.Shaped v → Live m (.heap v)

namespace Live

variable (h : m.Live e)

include h

theorem wordAt {i : Int} (hi : i = k) (hk : k < 8) : e.wordAt i m = .ok (m.wordOf e k) m := by
  cases h with
  | stack hp hc _ _ _ =>
    have hhigh := hp.high
    rw [frameEnd_code hc] at hhigh
    exact word_apply_of (by omega) (by omega)
  | heap hs hsh =>
    rw [wordOf_heap hs]
    exact scope_wordAt hs hsh hi hk

theorem slotCount : e.slotCount m = .ok (m.slotsOf e : Int) m := by
  refine slotCount_of (h.wordAt rfl (by decide)) ?_
  cases h with
  | stack hp _ _ _ _ => exact hp.flags
  | heap hs hsh =>
    rw [wordOf_heap hs]
    exact hsh.flags

theorem localAt {i : Nat} (hi : i < m.slotsOf e) : e.localAt i m = .ok (m.localOf e i) m := by
  cases h with
  | @stack f hp hc hn hr hl =>
    have hlow := hp.low
    have hhigh := hp.high
    rw [frameEnd_code hc] at hhigh
    have hslots : m.slotsOf (.stack f) = m.slotsAt f := rfl
    rw [Env.localAt, bind_of_ok (slotCount (.stack hp hc hn hr hl))]
    exact word_apply_of (by omega) (by omega)
  | heap hs hsh =>
    rw [slotsOf_heap hs] at hi
    rw [localOf_heap hs]
    exact localAt_scope hs hsh hi

theorem envAt : envAt e.name m = .ok e m := by
  cases h with
  | stack hp hc hn hr _ => exact envAt_frame (Value.isFrame_frameAt _) hn.symm hp hc hr
  | heap hs _ => exact envAt_scope hs

end Live

/-- The control words of a frame lie on the stack. -/
theorem Live.frame_le {f : Nat} (h : m.Live (.stack f)) : f + 8 ≤ m.context.stack.len := by
  cases h with
  | stack _ _ _ _ hl => exact hl

/-! ## Environments that are kept -/

/-- An environment is as it was; other words of the stack and other objects may have changed. -/
structure KeepsEnv (m m' : Machine) (e : Env) : Prop where
  stack : ∀ f, e = .stack f → f + 8 ≤ m'.context.stack.len ∧ m'.context.stack.capacity = m.context.stack.capacity ∧
    m.KeepsFrame m' f ∧ m'.slot (f + 1) = m.slot (f + 1)
  heap : ∀ v s, e = .heap v → m.scope? v = some s → s.Shaped v → m'.scope? v = some s

namespace KeepsEnv

/-- The environment of a frame needs nothing but the frame. -/
theorem of_frame {f : Nat} (hlen : f + 8 ≤ m'.context.stack.len)
    (hcap : m'.context.stack.capacity = m.context.stack.capacity) (hframe : m.KeepsFrame m' f)
    (hcopy : m'.slot (f + 1) = m.slot (f + 1)) : m.KeepsEnv m' (.stack f) where
  stack g he := by
    cases he
    exact ⟨hlen, hcap, hframe, hcopy⟩
  heap _ _ he := by cases he

/-- One on the heap needs nothing but its scope. -/
theorem of_scope {v : Value} (h : ∀ s, m.scope? v = some s → s.Shaped v → m'.scope? v = some s) :
    m.KeepsEnv m' (.heap v) where
  stack _ he := by cases he
  heap _ s he hs hsh := by
    cases he
    exact h s hs hsh

variable {i : Nat} (hk : m.KeepsEnv m' e) (h : m.Live e)

include hk h

theorem live : m'.Live e := by
  cases h with
  | @stack f hp hc hn hr hl =>
    obtain ⟨hlen, hcap, hframe, hcopy⟩ := hk.stack f rfl
    exact .stack (hframe.placed hcap hp) (hframe.isCode.trans hc) hn (hcopy ▸ hr) hlen
  | heap hs hsh => exact .heap (hk.heap _ _ rfl hs hsh) hsh

theorem wordOf (hlt : k < 8) : m'.wordOf e k = m.wordOf e k := by
  cases h with
  | @stack f hp hc hn hr hl =>
    obtain ⟨-, -, hframe, hcopy⟩ := hk.stack f rfl
    by_cases h1 : k = 1
    · rw [h1]
      exact hcopy
    · exact hframe.slot (by rw [frameEnd_code hc]; omega) h1
  | heap hs hsh => rw [wordOf_heap (hk.heap _ _ rfl hs hsh), wordOf_heap hs]

theorem localOf (hlt : i < m.slotsOf e) : m'.localOf e i = m.localOf e i := by
  cases h with
  | @stack f hp hc hn hr hl =>
    obtain ⟨-, -, hframe, -⟩ := hk.stack f rfl
    have hlow := hp.low
    have hslots : m.slotsOf (.stack f) = m.slotsAt f := rfl
    rw [Machine.localOf, Machine.localOf, hframe.slotsAt]
    exact hframe _ (by omega) (by rw [frameEnd_code hc]; omega) (by omega)
  | heap hs hsh => rw [localOf_heap (hk.heap _ _ rfl hs hsh), localOf_heap hs]

end KeepsEnv

/-! ## The way out -/

/-- The code that runs in an environment. -/
def Runs (m : Machine) (e : Env) (seq : Code.Sequence) : Prop :=
  ∃ fn, e.fn m = .ok fn m ∧ sequence fn m = .ok seq m

theorem Runs.unique (h : m.Runs e seq) (h' : m.Runs e seq') : seq = seq' := by
  obtain ⟨fn, hfn, hseq⟩ := h
  obtain ⟨fn', hfn', hseq'⟩ := h'
  cases hfn.symm.trans hfn'
  cases hseq.symm.trans hseq'
  rfl

/-- Code in `e₁` is nested in that of `e`, `n` levels deep, and none of the code between takes arguments to pass on. -/
inductive Within (m : Machine) (e : Env) : Nat → Env → Prop
  | here : Within m e 0 e
  | block {e₁ e₂ : Env} {o : Value} {seq : Code.Sequence} {n : Nat} : m.Runs e₁ seq → seq.delegateSlot = none →
      e₁.outer m = .ok o m → o.isNil = false → Exec.envAt o m = .ok e₂ m → Within m e n e₂ → Within m e (n + 1) e₁

/-! ## How many environments there are -/

theorem lt_of_word {i : Int} (h : word i m = .ok v m') : i < m.context.stack.capacity := by
  by_contra hi
  have hcheck : m.context.stack.checkWord i = .error .fault := if_pos (by omega)
  have hword : m.context.stack.word? i = .error .fault := by
    rw [Stack.word?, hcheck]
    rfl
  have hrun : word i m = (liftM (m.context.stack.word? i) : Exec Value) m := rfl
  rw [hrun, hword] at h
  cases h

theorem scope?_of_asScope (h : asScope v m = .ok s m') : m.scope? v = some s := by
  obtain ⟨o, m₁, hderef, h⟩ := exists_of_bind h
  unfold deref at hderef
  obtain ⟨r, m₂, hr, hderef⟩ := exists_of_bind hderef
  cases hv : v.isRef with
  | false =>
    rw [Value.asRef, if_neg (by rw [hv]; decide)] at hr
    cases hr
  | true =>
    rw [Value.asRef, if_pos hv] at hr
    cases hr
    have hrun : (liftM (m.heap.read v.toRef) : Exec Object) m = .ok o m₁ := hderef
    cases hread : m.heap.read v.toRef with
    | error d =>
      rw [hread] at hrun
      cases hrun
    | ok o' =>
      rw [hread] at hrun
      cases hrun
      refine scope?_eq_some.2 ⟨hv, hread.trans ?_⟩
      cases o with
      | scope s' =>
        cases h
        rfl
      | _ => cases h

/-- A number for every environment: the slot of a frame, or the cell of a scope. -/
def placeOf (m : Machine) : Env → Nat
  | .stack f => f
  | .heap v => m.context.stack.capacity + (v.toRef.page * Heap.pageCells + v.toRef.cell)

theorem placeOf_stack (m : Machine) (f : Nat) : m.placeOf (.stack f) = f := rfl

theorem placeOf_heap (m : Machine) (v : Value) :
    m.placeOf (.heap v) = m.context.stack.capacity + (v.toRef.page * Heap.pageCells + v.toRef.cell) := rfl

/-- The most environments that there can be. -/
def placeCount (m : Machine) : Nat := m.context.stack.capacity + m.heap.pages.size * Heap.pageCells

theorem exists_of_fn (h : e.fn m = .ok fn m') :
    (∃ f, e = .stack f ∧ f < m.context.stack.capacity) ∨ ∃ v s, e = .heap v ∧ m.scope? v = some s := by
  obtain ⟨w, m₁, hw, -⟩ := exists_of_bind h
  cases e with
  | stack f =>
    have hlt : (f : Int) + Frame.fnWord < m.context.stack.capacity := lt_of_word hw
    unfold Frame.fnWord at hlt
    exact .inl ⟨f, rfl, by omega⟩
  | heap v =>
    obtain ⟨s, m₂, hs, -⟩ := exists_of_bind hw
    exact .inr ⟨v, s, rfl, scope?_of_asScope hs⟩

theorem placeOf_lt (h : e.fn m = .ok fn m') : m.placeOf e < m.placeCount := by
  unfold placeCount
  rcases exists_of_fn h with ⟨f, rfl, hlt⟩ | ⟨v, s, rfl, hs⟩
  · exact Nat.lt_add_right _ hlt
  · obtain ⟨-, hread⟩ := scope?_eq_some.1 hs
    obtain ⟨hp, hc, -⟩ := Heap.read_eq_ok.1 hread
    have hpage : (v.toRef.page + 1) * Heap.pageCells ≤ m.heap.pages.size * Heap.pageCells :=
      Nat.mul_le_mul_right _ hp
    rw [Nat.add_mul] at hpage
    rw [placeOf_heap]
    omega

/-- Environments with the same number have the same words. -/
theorem wordAt_congr {fn' : FnId} (h : e.fn m = .ok fn m') (h' : e'.fn m = .ok fn' m') (he : m.placeOf e = m.placeOf e')
    (i : Int) : e.wordAt i m = e'.wordAt i m := by
  rcases exists_of_fn h with ⟨f, rfl, hf⟩ | ⟨v, s, rfl, hs⟩ <;>
    rcases exists_of_fn h' with ⟨f', rfl, hf'⟩ | ⟨v', s', rfl, hs'⟩
  · rw [show f = f' from he]
  · rw [placeOf_stack, placeOf_heap] at he
    omega
  · rw [placeOf_stack, placeOf_heap] at he
    omega
  · obtain ⟨-, hread⟩ := scope?_eq_some.1 hs
    obtain ⟨-, hread'⟩ := scope?_eq_some.1 hs'
    obtain ⟨-, hc, -⟩ := Heap.read_eq_ok.1 hread
    obtain ⟨-, hc', -⟩ := Heap.read_eq_ok.1 hread'
    rw [placeOf_heap, placeOf_heap] at he
    have hsame := Nat.add_left_cancel he
    have hpage : v.toRef.page = v'.toRef.page := by
      unfold Heap.pageCells at hsame hc hc'
      omega
    have hcell : v.toRef.cell = v'.toRef.cell := by
      rw [hpage] at hsame
      exact Nat.add_left_cancel hsame
    have href := toRef_eq_of_read hread hread' hpage.symm hcell.symm
    rw [href, hread] at hread'
    cases hread'
    rw [Env.wordAt, Env.wordAt, bind_of_ok (asScope_apply hs), bind_of_ok (asScope_apply hs')]

theorem fn_congr {fn' : FnId} (h : e.fn m = .ok fn m') (h' : e'.fn m = .ok fn' m') (he : m.placeOf e = m.placeOf e') :
    e.fn m = e'.fn m := by
  rw [Env.fn, Env.fn, bind_apply, bind_apply, wordAt_congr h h' he]

/-- From one place there is but one way out. -/
theorem Within.unique (hr : m.Runs e seq) (hs : seq.delegateSlot.isSome = true) (h : m.Within e n e₁)
    (h' : m.Within e n' e₂) (hp : m.placeOf e₁ = m.placeOf e₂) : n = n' := by
  have stops {seq' : Code.Sequence} (hr' : m.Runs e seq') (hn : seq'.delegateSlot = none) : False := by
    rw [hr.unique hr', hn] at hs
    cases hs
  induction h generalizing n' e₂ with
  | here =>
    cases h' with
    | here => rfl
    | block hr₂ hn =>
      obtain ⟨fn₂, hfn₂, hseq₂⟩ := hr₂
      obtain ⟨fn, hfn, -⟩ := hr
      exact (stops ⟨fn₂, (fn_congr hfn hfn₂ hp).trans hfn₂, hseq₂⟩ hn).elim
  | block hr₁ hn ho _ he hw ih =>
    obtain ⟨fn₁, hfn₁, hseq₁⟩ := hr₁
    cases h' with
    | here =>
      obtain ⟨fn, hfn, -⟩ := hr
      exact (stops ⟨fn₁, (fn_congr hfn₁ hfn hp).symm.trans hfn₁, hseq₁⟩ hn).elim
    | block hr₂ _ ho₂ _ he₂ hw₂ =>
      obtain ⟨fn₂, hfn₂, -⟩ := hr₂
      cases ((wordAt_congr hfn₁ hfn₂ hp _).symm.trans ho).symm.trans ho₂
      cases he.symm.trans he₂
      rw [ih hw₂ rfl]

/-- The environments on the way out are different ones. -/
theorem Within.places (hr : m.Runs e seq) (hs : seq.delegateSlot.isSome = true) (h : m.Within e n e₁) : ∃ l : List Env,
    l.length = n + 1 ∧ (l.map m.placeOf).Nodup ∧
      ∀ x ∈ l, (∃ fn, x.fn m = .ok fn m) ∧ ∃ k ≤ n, m.Within e k x := by
  induction h with
  | here =>
    obtain ⟨fn, hfn, -⟩ := hr
    refine ⟨[e], rfl, List.nodup_singleton _, fun x hx => ?_⟩
    rw [List.mem_singleton] at hx
    subst hx
    exact ⟨⟨fn, hfn⟩, 0, le_rfl, .here⟩
  | @block e₁ e₂ o seq₁ n hr₁ hn ho hnil he hw ih =>
    have hhere : m.Within e (n + 1) e₁ := .block hr₁ hn ho hnil he hw
    obtain ⟨fn, hfn, -⟩ := hr₁
    obtain ⟨l, hlen, hnodup, hmem⟩ := ih
    refine ⟨e₁ :: l, by rw [List.length_cons, hlen], ?_, fun x hx => ?_⟩
    · rw [List.map_cons, List.nodup_cons]
      refine ⟨fun hin => ?_, hnodup⟩
      obtain ⟨x, hx, hplace⟩ := List.mem_map.1 hin
      obtain ⟨-, k, hk, hwithin⟩ := hmem x hx
      have := hwithin.unique hr hs hhere hplace
      omega
    · rcases List.mem_cons.1 hx with rfl | hx
      · exact ⟨⟨fn, hfn⟩, n + 1, le_rfl, hhere⟩
      · obtain ⟨hrun, k, hk, hwithin⟩ := hmem x hx
        exact ⟨hrun, k, by omega, hwithin⟩

/-- There are as many environments on the way out as there are places for them, at most. -/
theorem Within.lt_placeCount (hr : m.Runs e seq) (hs : seq.delegateSlot.isSome = true) (h : m.Within e n e₁) :
    n < m.placeCount := by
  obtain ⟨l, hlen, hnodup, hmem⟩ := h.places hr hs
  have hsub : l.map m.placeOf ⊆ List.range m.placeCount := fun p hp => by
    obtain ⟨x, hx, rfl⟩ := List.mem_map.1 hp
    obtain ⟨⟨fn, hfn⟩, -⟩ := hmem x hx
    exact List.mem_range.2 (placeOf_lt hfn)
  have hle := (List.subperm_of_subset hnodup hsub).length_le
  rw [List.length_map, hlen, List.length_range] at hle
  exact hle

end Machine

end RubyMachine
