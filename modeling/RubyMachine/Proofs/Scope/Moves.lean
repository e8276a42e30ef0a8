import RubyMachine.Proofs.Scope.View

/-! What a frame that moves to the heap leaves as it was: other words of the stack, all objects, what is seen
from every environment, and well-formedness. -/

namespace RubyMachine.Machine

variable {m m' m'' : Machine} {fs gs : List Nat} {v w top : Value} {s : Scope} {ls : List Layer} {b f g i : Nat}

/-! ## Scopes that are kept -/

/-- Complete scopes are there with the words that they had. -/
def KeepsScopes (m m' : Machine) : Prop := ∀ v s, m.scope? v = some s → s.Shaped v → m'.scope? v = some s

/-- References that are good lead to the same objects. -/
def KeepsObjects (m m' : Machine) : Prop := ∀ (v : Value) o, m.heap.read v.toRef = .ok o → m'.heap.read v.toRef = .ok o

theorem KeepsObjects.scope? (h : m.KeepsObjects m') (hs : m.scope? v = some s) : m'.scope? v = some s := by
  rw [scope?_eq_some] at hs ⊢
  exact ⟨hs.1, h v _ hs.2⟩

theorem KeepsObjects.scopes (h : m.KeepsObjects m') : m.KeepsScopes m' := fun _ _ hs _ => h.scope? hs

/-- Objects other than scopes are there as they were. -/
def KeepsOthers (m m' : Machine) : Prop :=
  ∀ (v : Value) o, m.heap.read v.toRef = .ok o → (∀ s, o ≠ .scope s) → m'.heap.read v.toRef = .ok o

theorem KeepsObjects.others (h : m.KeepsObjects m') : m.KeepsOthers m' := fun v o hr _ => h v o hr

/-- Where a scope is written over, there was no other object. -/
theorem Rewritten.keepsOthers {s' : Scope} (h : m.Rewritten m' v s') (hs : m.scope? v = some s) : m.KeepsOthers m' :=
  fun w o hw hn => by
    rw [h.other w fun he => ?_]
    · exact hw
    · obtain ⟨-, hr⟩ := scope?_eq_some.1 hs
      rw [he, hr] at hw
      cases hw
      exact hn s rfl

theorem KeepsObjects.trans (h : m.KeepsObjects m') (h' : m'.KeepsObjects m'') : m.KeepsObjects m'' :=
  fun v o hr => h' v o (h v o hr)

/-- A place that was vacant before can be written over. -/
theorem KeepsObjects.rewritten (h : m.KeepsObjects m') (hv : ∀ o, m.heap.read v.toRef ≠ .ok o)
    (hr : m'.Rewritten m'' v s) : m.KeepsObjects m'' := fun w o hw => by
  rw [hr.other w fun he => hv o (he ▸ hw)]
  exact h w o hw

/-- A scope that is not complete can be written over. -/
theorem Rewritten.keepsScopes {s' : Scope} (h : m.Rewritten m' v s') (hs : m.scope? v = some s)
    (hn : ∀ w, ¬ s.Shaped w) : m.KeepsScopes m' := fun w s₀ hw hsh => by
  refine (h.scope?_other fun he => ?_).trans hw
  obtain ⟨-, hr⟩ := scope?_eq_some.1 hs
  obtain ⟨-, hr'⟩ := scope?_eq_some.1 hw
  rw [he, hr] at hr'
  cases hr'
  exact hn w hsh

/-- From a complete scope the same is seen as long as the complete scopes are kept. -/
theorem Enclosed.sees_mono (h : m.Enclosed v top) (hk : m.KeepsScopes m') (hs : m.Sees fs v ls) : m'.Sees fs v ls := by
  induction h generalizing ls with
  | method hv hsh ho _ =>
    obtain ⟨-, ls', rfl, ho'⟩ := hs.of_scope hv
    rw [ho'.nil_iff ho]
    exact .scope (hk _ _ hv hsh) hsh (.nil ho)
  | block hv hsh _ _ ih =>
    obtain ⟨-, ls', rfl, ho'⟩ := hs.of_scope hv
    exact .scope (hk _ _ hv hsh) hsh (ih ho')

theorem Sees.mono (hk : m.KeepsScopes m') (hc : m'.context = m.context) (h : m.Sees fs v ls) : m'.Sees fs v ls := by
  have hslot (i : Nat) : m'.slot i = m.slot i := by rw [slot, hc, slot]
  have hcode (f : Nat) (hf : m.CodeFrame fs f) : m'.CodeFrame fs f := by
    rwa [CodeFrame, isCode, hslot]
  have hlayer (f : Nat) : m'.layerAt f = m.layerAt f := by
    simp only [layerAt, slotsAt, hslot]
  induction h with
  | nil hv => exact .nil hv
  | frame hv hf hr _ ih =>
    rw [← hlayer]
    exact .frame hv (hcode _ hf) (hslot _ ▸ hr) (hslot _ ▸ ih)
  | moved hv hf hr _ ih => exact .moved hv (hcode _ hf) (hslot _ ▸ hr) (hslot _ ▸ ih)
  | scope hs hsh _ ih => exact .scope (hk _ _ hs hsh) hsh ih

/-! ## Frames that are kept -/

/-- The words of a frame are as before, but for the one that may name its copy. -/
def KeepsFrame (m m' : Machine) (g : Nat) : Prop :=
  ∀ i, g - m.slotsAt g - 1 ≤ i → i < m.frameEnd g → i ≠ g + 1 → m'.slot i = m.slot i

theorem KeepsFrame.slot {k : Nat} (h : m.KeepsFrame m' g) (hk : g + k < m.frameEnd g) (h1 : k ≠ 1) :
    m'.slot (g + k) = m.slot (g + k) :=
  h _ (by omega) hk (by omega)

theorem add_two_lt_frameEnd (m : Machine) (g : Nat) : g + 2 < m.frameEnd g := by
  unfold frameEnd
  split <;> simp [Frame.words]

namespace KeepsFrame

variable (h : m.KeepsFrame m' g)

include h

theorem slotsAt : m'.slotsAt g = m.slotsAt g := by
  rw [Machine.slotsAt, h.slot (add_two_lt_frameEnd m g) (by decide), Machine.slotsAt]

theorem isCode : m'.isCode g = m.isCode g := by
  rw [Machine.isCode, h.slot (add_two_lt_frameEnd m g) (by decide), Machine.isCode]

theorem frameEnd : m'.frameEnd g = m.frameEnd g := by
  rw [Machine.frameEnd, h.isCode, Machine.frameEnd]

theorem callerAt : m'.callerAt g = m.callerAt g := by
  have := h.slot (k := 0) (by have := add_two_lt_frameEnd m g; omega) (by decide)
  rw [Nat.add_zero] at this
  rw [Machine.callerAt, this, Machine.callerAt]

theorem layerAt (hlow : m.slotsAt g < g) : m'.layerAt g = m.layerAt g := by
  have hend := add_two_lt_frameEnd m g
  rw [Machine.layerAt, Machine.layerAt, h.slotsAt, h (g - 1) (by omega) (by omega) (by omega)]
  refine congrArg (Layer.mk _) (List.map_congr_left fun i hi => ?_)
  have := List.mem_range.1 hi
  exact h _ (by omega) (by omega) (by omega)

theorem placed (hcap : m'.context.stack.capacity = m.context.stack.capacity) (hp : m.Placed g) : m'.Placed g where
  flags := by rw [h.slot (add_two_lt_frameEnd m g) (by decide)]; exact hp.flags
  low := by rw [h.slotsAt]; exact hp.low
  high := by rw [h.frameEnd, hcap]; exact hp.high

end KeepsFrame

theorem Frames.caller_mem {o : Option Nat} (h : m.Frames o gs) (hg : g ∈ o) : g ∈ gs := by
  cases h with
  | nil => cases hg
  | cons =>
    cases hg
    exact List.mem_cons_self

theorem Frames.mono {o : Option Nat} (hcap : m'.context.stack.capacity = m.context.stack.capacity)
    (hk : ∀ g ∈ gs, m.KeepsFrame m' g) (h : m.Frames o gs) : m'.Frames o gs := by
  induction h with
  | nil => exact .nil
  | @cons f fs hp hc ht ih =>
    have hf := hk f List.mem_cons_self
    refine .cons (hf.placed hcap hp) ?_ ?_
    · intro g hg
      rw [hf.callerAt] at hg
      rw [(hk g (List.mem_cons_of_mem f (ht.caller_mem hg))).frameEnd, hf.slotsAt]
      exact hc g hg
    · rw [hf.callerAt]
      exact ih fun g hg => hk g (List.mem_cons_of_mem f hg)

/-! ## Moves -/

/-- A machine with the heap and the running stack of another one. -/
def withMemory (m' m : Machine) : Machine := { m' with heap := m.heap, context.stack := m.context.stack }

/-- Frames below slot `b` may have been moved to the heap. -/
structure Moved (m m' : Machine) (fs : List Nat) (b : Nat) : Prop where
  rest : m'.withMemory m = m
  len : m'.context.stack.len = m.context.stack.len
  capacity : m'.context.stack.capacity = m.context.stack.capacity
  slot : ∀ i, m'.slot i = m.slot i ∨ (m.slot i).isRef = false ∧ ∃ f, m.CodeFrame fs f ∧ f < b ∧ i = f + 1
  inv : m'.heap.Inv
  objects : m.KeepsObjects m'
  sees : ∀ v ls, m.Sees fs v ls → m'.Sees fs v ls
  copy : ∀ f, m.CodeFrame fs f → (m'.slot (f + 1)).isRef = true → ∃ top, m'.Enclosed (m'.slot (f + 1)) top

theorem Moved.refl (hw : m.WellFormed fs) : m.Moved m fs b where
  rest := rfl
  len := rfl
  capacity := rfl
  slot _ := .inl rfl
  inv := hw.heap
  objects _ _ hr := hr
  sees _ _ hs := hs
  copy f hf := (hw.linked f hf).copy

/-- The slots that name copies are no part of other frames. -/
theorem WellFormed.ne_copy (hw : m.WellFormed fs) (hf : m.CodeFrame fs f) (hg : g ∈ fs) (hlo : g - m.slotsAt g - 1 ≤ i)
    (hhi : i < m.frameEnd g) (hne : i ≠ g + 1) : i ≠ f + 1 := by
  have he := frameEnd_code hf.2
  have hp := hw.frames.placed hg
  have := hp.low
  rcases Nat.lt_trichotomy f g with hlt | rfl | hlt
  · have := hw.frames.apart hg hf.1 hlt
    omega
  · exact hne
  · have := hw.frames.apart hf.1 hg hlt
    omega

namespace Moved

theorem keepsFrame (h : m.Moved m' fs b) (hw : m.WellFormed fs) (hg : g ∈ fs) : m.KeepsFrame m' g :=
  fun i hlo hhi hne => by
    rcases h.slot i with he | ⟨-, f, hf, -, rfl⟩
    · exact he
    · exact absurd rfl (hw.ne_copy hf hg hlo hhi hne)

theorem codeFrame (h : m.Moved m' fs b) (hw : m.WellFormed fs) : m'.CodeFrame fs f ↔ m.CodeFrame fs f := by
  constructor <;> rintro ⟨hf, hc⟩ <;> refine ⟨hf, ?_⟩
  · rwa [(h.keepsFrame hw hf).isCode] at hc
  · rwa [(h.keepsFrame hw hf).isCode]

/-- A word that names a copy goes on to do so. -/
theorem slot_of_isRef (h : m.Moved m' fs b) (hr : (m.slot i).isRef = true) : m'.slot i = m.slot i := by
  rcases h.slot i with he | ⟨hn, -⟩
  · exact he
  · rw [hr] at hn; cases hn

theorem slot_of_le (h : m.Moved m' fs b) (hi : b < i) : m'.slot i = m.slot i := by
  rcases h.slot i with he | ⟨-, f, -, hlt, rfl⟩
  · exact he
  · omega

theorem frame (h : m.Moved m' fs b) : m'.context.frame = m.context.frame := by
  show (m'.withMemory m).context.frame = _
  rw [h.rest]

theorem enclosed (h : m.Moved m' fs b) (he : m.Enclosed v top) : m'.Enclosed v top := he.mono h.objects.scopes

/-- The control words of a code frame, but for the one that may name its copy. -/
theorem control (h : m.Moved m' fs b) (hw : m.WellFormed fs) (hf : m.CodeFrame fs f) {k : Nat} (hk : k < 8)
    (h1 : k ≠ 1) : m'.slot (f + k) = m.slot (f + k) :=
  (h.keepsFrame hw hf.1).slot (by rw [frameEnd_code hf.2]; omega) h1

theorem wellFormed (h : m.Moved m' fs b) (hw : m.WellFormed fs) : m'.WellFormed fs where
  heap := h.inv
  frames := by
    rw [h.frame]
    exact hw.frames.mono h.capacity fun g hg => h.keepsFrame hw hg
  linked f hf := by
    have hf' := (h.codeFrame hw).1 hf
    have hl := hw.linked f hf'
    have hc (k : Nat) (hk : k < 8) (h1 : k ≠ 1) := h.control hw hf' hk h1
    refine ⟨hl.named, ?_, ?_, h.copy f hf', ?_, ?_⟩
    · rw [hc 4 (by decide) (by decide), h.codeFrame hw]
      exact hl.outer.imp_right (Or.imp_right fun ⟨top, ht⟩ => ⟨top, h.enclosed ht⟩)
    · rw [hc 7 (by decide) (by decide), h.codeFrame hw]
      exact hl.block
    · rw [hc 5 (by decide) (by decide)]
      exact hl.position
    · rw [hc 6 (by decide) (by decide)]
      exact hl.code

theorem trans {b' : Nat} (h : m.Moved m' fs b) (hw : m.WellFormed fs) (h' : m'.Moved m'' fs b') (hb : b ≤ b') :
    m.Moved m'' fs b' where
  rest := by
    show (m''.withMemory m').withMemory m = m
    rw [h'.rest, h.rest]
  len := h'.len.trans h.len
  capacity := h'.capacity.trans h.capacity
  slot i := by
    rcases h'.slot i with he' | ⟨hn, f, hf, hlt, hi⟩ <;> rcases h.slot i with he | ⟨hn', g, hg, hlt', hi'⟩
    · exact .inl (he'.trans he)
    · exact .inr ⟨hn', g, hg, by omega, hi'⟩
    · exact .inr ⟨he ▸ hn, f, (h.codeFrame hw).1 hf, hlt, hi⟩
    · exact .inr ⟨hn', g, hg, by omega, hi'⟩
  inv := h'.inv
  objects := h.objects.trans h'.objects
  sees v ls hs := h'.sees v ls (h.sees v ls hs)
  copy f hf := h'.copy f ((h.codeFrame hw).2 hf)

end Moved

end RubyMachine.Machine
