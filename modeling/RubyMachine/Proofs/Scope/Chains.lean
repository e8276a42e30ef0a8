import RubyMachine.Proofs.Scope.Memory

/-! Chains of environments: what code sees from a frame outwards, and which scopes are complete. -/

namespace RubyMachine

/-- What code sees of one environment: the receiver and the local slots. -/
structure Layer where
  self : Value
  locals : List Value

/-- No value in the layer is good on one stack only. -/
def Layer.Clean (l : Layer) : Prop := l.self.isLocal = false ∧ ∀ x ∈ l.locals, x.isLocal = false

/-! ## Frames as they lie on the stack -/

namespace Machine

/-- The number of local slots of a frame. -/
def slotsAt (m : Machine) (f : Nat) : Nat := (m.slot (f + 2)).slots

def isCode (m : Machine) (f : Nat) : Bool := UInt64.ofInt (m.slot (f + 2)).toInt &&& Frame.codeFlag != 0

/-- The slot after the control words of a frame. Builtins have three of them. -/
def frameEnd (m : Machine) (f : Nat) : Nat := f + if m.isCode f then Frame.words else 3

def callerAt (m : Machine) (f : Nat) : Option Nat := if (m.slot f).isFrame then some (m.slot f).toFrame else none

def layerAt (m : Machine) (f : Nat) : Layer :=
  ⟨m.slot (f - 1), (List.range (m.slotsAt f)).map fun i => m.slot (f - m.slotsAt f - 1 + i)⟩

/-- A frame with its locals below and its control words above it in the stack. -/
structure Placed (m : Machine) (f : Nat) : Prop where
  flags : (m.slot (f + 2)).isFixnum = true
  low : m.slotsAt f < f
  high : m.frameEnd f ≤ m.context.stack.capacity

/-- The frames of the running stack from one outwards. Each caller ends below the locals of the frame
that it called. -/
inductive Frames (m : Machine) : Option Nat → List Nat → Prop
  | nil : Frames m none []
  | cons {f : Nat} {fs : List Nat} : m.Placed f → (∀ g ∈ m.callerAt f, m.frameEnd g + m.slotsAt f + 1 ≤ f) →
      Frames m (m.callerAt f) fs → Frames m (some f) (f :: fs)

/-- The frames of code among `fs`. -/
def CodeFrame (m : Machine) (fs : List Nat) (f : Nat) : Prop := f ∈ fs ∧ m.isCode f = true

end Machine

/-! ## Scopes -/

namespace Scope

def layer (s : Scope) : Layer := ⟨s.receiver, (List.range s.slotCount).map s.slot⟩

/-- A scope at `v` that is laid out like a frame and has no word that is good on one stack only among its
control words. -/
structure Shaped (s : Scope) (v : Value) : Prop where
  self : s.self = v
  base : s.base = s.slotCount + 2
  size : s.words.size = s.base + 8
  flags : (s.word 2).isFixnum = true
  env : s.word 1 = v
  first : s.words.getD 0 .nil = s.receiver
  control : ∀ i < 8, (s.word i).isLocal = false

theorem Shaped.clean {s : Scope} {v : Value} (h : s.Shaped v) (hl : s.layer.Clean) : ∀ x ∈ s.words, x.isLocal = false := by
  intro x hx
  obtain ⟨k, hk, rfl⟩ := Array.mem_iff_getElem.1 hx
  have hget : s.words[k] = s.words.getD k .nil := by
    rw [Array.getD_eq_getD_getElem?, Array.getElem?_eq_getElem hk, Option.getD_some]
  have hb := h.base
  have hz := h.size
  rw [hget]
  by_cases hlow : k < s.base
  · by_cases h0 : k = 0
    · rw [h0, h.first]
      exact hl.1
    by_cases hself : k = s.base - 1
    · rw [hself]
      exact hl.1
    · refine hl.2 _ (List.mem_map.2 ⟨k - 1, List.mem_range.2 (by omega), ?_⟩)
      rw [slot, Nat.sub_add_cancel (by omega)]
  · have := h.control (k - s.base) (by omega)
    rwa [word, Nat.add_sub_cancel' (Nat.not_lt.1 hlow)] at this

end Scope

namespace Machine

/-- A scope whose chain of outer scopes ends with `top`, to which the method links lead. -/
inductive Enclosed (m : Machine) : Value → Value → Prop
  | method {v : Value} {s : Scope} : m.scope? v = some s → s.Shaped v → (s.word 4).isNil = true → s.word 3 = v →
      Enclosed m v v
  | block {v top : Value} {s : Scope} : m.scope? v = some s → s.Shaped v → Enclosed m (s.word 4) top →
      s.word 3 = top → Enclosed m v top

variable {m m' : Machine} {v top : Value} {s : Scope}

theorem isRef_of_scope? (h : m.scope? v = some s) : v.isRef = true := (scope?_eq_some.1 h).1

theorem Enclosed.scope (h : m.Enclosed v top) : ∃ s, m.scope? v = some s ∧ s.Shaped v ∧ s.word 3 = top := by
  cases h with
  | method hs hv _ hm => exact ⟨_, hs, hv, hm⟩
  | block hs hv _ hm => exact ⟨_, hs, hv, hm⟩

theorem Enclosed.isRef (h : m.Enclosed v top) : v.isRef = true := by
  obtain ⟨s, hs, -⟩ := h.scope
  exact isRef_of_scope? hs

theorem Enclosed.outermost (h : m.Enclosed v top) : m.Enclosed top top := by
  induction h with
  | method hs hv ho hm => exact .method hs hv ho hm
  | block _ _ _ _ ih => exact ih

/-- Scopes that keep their shape stay complete. -/
theorem Enclosed.mono (hm : ∀ v s, m.scope? v = some s → s.Shaped v → m'.scope? v = some s) (h : m.Enclosed v top) :
    m'.Enclosed v top := by
  induction h with
  | method hs hv ho hw => exact .method (hm _ _ hs hv) hv ho hw
  | block hs hv _ hw ih => exact .block (hm _ _ hs hv) hv ih hw

/-! ## What is seen -/

/-- The layers that are seen from an environment outwards. -/
inductive Sees (m : Machine) (fs : List Nat) : Value → List Layer → Prop
  | nil {v : Value} : v.isNil = true → Sees m fs v []
  | frame {v : Value} {ls : List Layer} : v.isFrame = true → m.CodeFrame fs v.toFrame →
      (m.slot (v.toFrame + 1)).isRef = false → Sees m fs (m.slot (v.toFrame + 4)) ls →
      Sees m fs v (m.layerAt v.toFrame :: ls)
  | moved {v : Value} {ls : List Layer} : v.isFrame = true → m.CodeFrame fs v.toFrame →
      (m.slot (v.toFrame + 1)).isRef = true → Sees m fs (m.slot (v.toFrame + 1)) ls → Sees m fs v ls
  | scope {v : Value} {s : Scope} {ls : List Layer} : m.scope? v = some s → s.Shaped v → Sees m fs (s.word 4) ls →
      Sees m fs v (s.layer :: ls)

variable {fs : List Nat} {ls ls' : List Layer}

theorem Sees.nil_iff (h : m.Sees fs v ls) (hv : v.isNil = true) : ls = [] := by
  cases h with
  | nil _ => rfl
  | frame hf | moved hf => rw [Value.isNil_of_hasTag hf (by decide)] at hv; cases hv
  | scope hs => rw [Value.isNil_of_isRef (isRef_of_scope? hs)] at hv; cases hv

theorem Sees.of_scope (h : m.Sees fs v ls) (hs : m.scope? v = some s) :
    s.Shaped v ∧ ∃ ls', ls = s.layer :: ls' ∧ m.Sees fs (s.word 4) ls' := by
  have hr := isRef_of_scope? hs
  cases h with
  | nil hv => rw [Value.isNil_of_isRef hr] at hv; cases hv
  | frame hf | moved hf => rw [Value.isFrame_of_isRef hr] at hf; cases hf
  | scope hs' hv ho =>
    cases hs.symm.trans hs'
    exact ⟨hv, _, rfl, ho⟩

theorem Sees.of_frame (h : m.Sees fs v ls) (hv : v.isFrame = true) :
    ((m.slot (v.toFrame + 1)).isRef = false ∧
      ∃ ls', ls = m.layerAt v.toFrame :: ls' ∧ m.Sees fs (m.slot (v.toFrame + 4)) ls') ∨
    (m.slot (v.toFrame + 1)).isRef = true ∧ m.Sees fs (m.slot (v.toFrame + 1)) ls := by
  cases h with
  | nil hn => rw [Value.isNil_of_hasTag hv (by decide)] at hn; cases hn
  | frame _ _ hr ho => exact .inl ⟨hr, _, rfl, ho⟩
  | moved _ _ hr ho => exact .inr ⟨hr, ho⟩
  | scope hs => rw [Value.isFrame_of_isRef (isRef_of_scope? hs)] at hv; cases hv

/-- Only one thing is seen from an environment. -/
theorem Sees.unique (h : m.Sees fs v ls) (h' : m.Sees fs v ls') : ls = ls' := by
  induction h generalizing ls' with
  | nil hv => exact (h'.nil_iff hv).symm
  | frame hf hc hr _ ih =>
    rcases h'.of_frame hf with ⟨-, ls', rfl, ho⟩ | ⟨hr', -⟩
    · rw [ih ho]
    · rw [hr] at hr'; cases hr'
  | moved hf hc hr _ ih =>
    rcases h'.of_frame hf with ⟨hr', -⟩ | ⟨-, ho⟩
    · rw [hr] at hr'; cases hr'
    · exact ih ho
  | scope hs _ _ ih =>
    obtain ⟨-, ls', rfl, ho⟩ := h'.of_scope hs
    rw [ih ho]

theorem Enclosed.sees (h : m.Enclosed v top) (fs : List Nat) : ∃ ls, m.Sees fs v ls := by
  induction h with
  | method hs hv ho _ => exact ⟨_, .scope hs hv (.nil ho)⟩
  | block hs hv _ _ ih =>
    obtain ⟨ls, hl⟩ := ih
    exact ⟨_, .scope hs hv hl⟩

/-! ## Well-formed states -/

/-- The links of a code frame lead to frames below it or to complete scopes. -/
structure Linked (m : Machine) (fs : List Nat) (f : Nat) : Prop where
  named : (Value.frameAt f).toFrame = f
  outer : (m.slot (f + 4)).isNil = true ∨
    (m.slot (f + 4)).isFrame = true ∧ m.CodeFrame fs (m.slot (f + 4)).toFrame ∧ (m.slot (f + 4)).toFrame < f ∨
    ∃ top, m.Enclosed (m.slot (f + 4)) top
  block : (m.slot (f + 7)).isNil = true ∨ (m.slot (f + 7)).isSymbol = true ∨ (m.slot (f + 7)).isRef = true ∨
    (m.slot (f + 7)).isBlock = true ∧ m.CodeFrame fs (m.slot (f + 7)).toBlock.2 ∧ (m.slot (f + 7)).toBlock.2 < f
  copy : (m.slot (f + 1)).isRef = true → ∃ top, m.Enclosed (m.slot (f + 1)) top
  position : (m.slot (f + 5)).isFixnum = true
  code : (m.slot (f + 6)).isFixnum = true

/-- The frames of the running stack are `fs`, the innermost first, and well formed. -/
structure WellFormed (m : Machine) (fs : List Nat) : Prop where
  heap : m.heap.Inv
  frames : m.Frames m.context.frame fs
  linked : ∀ f, m.CodeFrame fs f → m.Linked fs f

theorem Frames.placed {o : Option Nat} (h : m.Frames o fs) {f : Nat} (hf : f ∈ fs) : m.Placed f := by
  induction h with
  | nil => cases hf
  | cons hp _ _ ih =>
    rcases List.mem_cons.1 hf with rfl | hf
    · exact hp
    · exact ih hf

theorem Frames.head {o : Option Nat} (h : m.Frames o fs) {f : Nat} (hf : f ∈ fs) : ∃ g, o = some g ∧ f ≤ g := by
  induction h with
  | nil => cases hf
  | @cons g fs hp hc _ ih =>
    rcases List.mem_cons.1 hf with rfl | hf
    · exact ⟨f, rfl, le_rfl⟩
    · obtain ⟨k, hk, hle⟩ := ih hf
      have := hc k hk
      refine ⟨g, rfl, ?_⟩
      have : k ≤ m.frameEnd k := Nat.le_add_right _ _
      omega

theorem Frames.le_frameEnd {o : Option Nat} (h : m.Frames o fs) {f : Nat} (hf : f ∈ fs) :
    ∃ g, o = some g ∧ m.frameEnd f ≤ m.frameEnd g := by
  induction h with
  | nil => cases hf
  | @cons g fs hp hc _ ih =>
    rcases List.mem_cons.1 hf with rfl | hf
    · exact ⟨f, rfl, le_rfl⟩
    · obtain ⟨k, hk, hle⟩ := ih hf
      have := hc k hk
      have : g ≤ m.frameEnd g := Nat.le_add_right _ _
      exact ⟨g, rfl, by omega⟩

/-- Of two frames the lower one ends below the locals of the other. -/
theorem Frames.apart {o : Option Nat} (h : m.Frames o fs) {f g : Nat} (hf : f ∈ fs) (hg : g ∈ fs) (hlt : g < f) :
    m.frameEnd g + m.slotsAt f + 1 ≤ f := by
  induction h with
  | nil => cases hf
  | @cons k fs hp hc ht ih =>
    rcases List.mem_cons.1 hf with rfl | hf' <;> rcases List.mem_cons.1 hg with rfl | hg'
    · exact absurd hlt (lt_irrefl _)
    · obtain ⟨j, hj, hle⟩ := ht.le_frameEnd hg'
      have := hc j hj
      omega
    · obtain ⟨j, hj, hle⟩ := ht.head hf'
      have := hc j hj
      have : j ≤ m.frameEnd j := Nat.le_add_right _ _
      omega
    · exact ih hf' hg'

theorem frameEnd_code {f : Nat} (hf : m.isCode f = true) : m.frameEnd f = f + 8 := by
  rw [frameEnd, if_pos hf]
  rfl

/-- Something is seen from every code frame. -/
theorem WellFormed.sees (hw : m.WellFormed fs) {v : Value} (hv : v.isFrame = true) (hc : m.CodeFrame fs v.toFrame) :
    ∃ ls, m.Sees fs v ls := by
  induction hn : v.toFrame using Nat.strong_induction_on generalizing v with
  | _ f ih =>
    have hl := hw.linked _ hc
    cases hr : (m.slot (v.toFrame + 1)).isRef with
    | true =>
      obtain ⟨top, ht⟩ := hl.copy hr
      obtain ⟨ls, hs⟩ := ht.sees fs
      exact ⟨ls, .moved hv hc hr hs⟩
    | false =>
      suffices ∃ ls, m.Sees fs (m.slot (v.toFrame + 4)) ls from this.elim fun ls hs => ⟨_, .frame hv hc hr hs⟩
      rcases hl.outer with ho | ⟨ho, hc', hlt⟩ | ⟨top, ho⟩
      · exact ⟨[], .nil ho⟩
      · exact ih _ (hn ▸ hlt) ho hc' rfl
      · exact ho.sees fs

end Machine

end RubyMachine
