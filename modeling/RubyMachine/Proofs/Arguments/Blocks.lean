import RubyMachine.Proofs.Arguments.Slots
import RubyMachine.Proofs.Scope.Escape

/-! A block that becomes a value: a new Proc, for which the frames that a literal block lives in move to the heap. -/

namespace RubyMachine

open Exec Machine

variable {m m₁ m₂ : Machine} {fs : List Nat} {low size : Nat} {f : Nat → Value} {v : Value} {blk : Option Block}

/-! ## Frames below a callee -/

namespace Machine

section

variable (hends : ∀ g ∈ fs, m.frameEnd g ≤ low) (h : Lays m m₁ low size f)

include hends h

theorem Lays.keepsFrame {g : Nat} (hg : g ∈ fs) : m.KeepsFrame m₁ g :=
  fun i _ hhi _ => h.below i (hhi.trans_le (hends g hg))

theorem Lays.codeFrame {g : Nat} : m₁.CodeFrame fs g ↔ m.CodeFrame fs g :=
  and_congr_right fun hg => by rw [(h.keepsFrame hends hg).isCode]

/-- Frames that end below the callee are not touched. -/
theorem Lays.wellFormed (hw : m.WellFormed fs) : m₁.WellFormed fs where
  heap := h.inv
  frames := by
    have hf : (m₁.withMemory m).context.frame = m.context.frame := by rw [h.rest]
    rw [show m₁.context.frame = m.context.frame from hf]
    exact hw.frames.mono h.capacity fun g hg => h.keepsFrame hends hg
  linked g hg := by
    have hg' := (h.codeFrame hends).1 hg
    have hl := hw.linked g hg'
    have hc (k : Nat) (hk : k < 8) : m₁.slot (g + k) = m.slot (g + k) := by
      have := hends g hg'.1
      rw [frameEnd_code hg'.2] at this
      exact h.below _ (by omega)
    have enclosed {w top : Value} (he : m.Enclosed w top) : m₁.Enclosed w top := he.mono h.objects.scopes
    refine ⟨hl.named, ?_, ?_, ?_, ?_, ?_⟩
    · rw [hc 4 (by decide), h.codeFrame hends]
      exact hl.outer.imp_right (Or.imp_right fun ⟨top, ht⟩ => ⟨top, enclosed ht⟩)
    · rw [hc 7 (by decide), h.codeFrame hends]
      exact hl.block
    · rw [hc 1 (by decide)]
      exact fun hr => (hl.copy hr).imp fun _ ht => enclosed ht
    · rw [hc 5 (by decide)]
      exact hl.position
    · rw [hc 6 (by decide)]
      exact hl.code

end

end Machine

/-! ## Procs of blocks -/

/-- Whether a block is written in code that runs. -/
def Block.isLiteral : Option Block → Bool
  | some (.literal ..) => true
  | _ => false

theorem exists_of_isLiteral (h : Block.isLiteral blk = true) : ∃ fn home, blk = some (.literal fn home) := by
  cases blk with
  | none => cases h
  | some b =>
    cases b with
    | literal fn home => exact ⟨fn, home, rfl⟩
    | proc v => cases h
    | symbol name => cases h

/-- The value that a block is handed over as. -/
inductive Stands (m : Machine) : Option Block → Value → Prop where
  | none : Stands m none .nil
  | proc (v : Value) : Stands m (some (.proc v)) v
  | symbol {name : Ident} {v : Value} : v.isRef = true → m.heap.read v.toRef = .ok (.proc { body := .send name }) →
    Stands m (some (.symbol name)) v
  /-- The Proc runs in the copy of the frame. -/
  | literal {fn : FnId} {home : Nat} {v self : Value} : v.isRef = true →
    m.heap.read v.toRef = .ok (.proc { body := .code fn, self, outer := m.slot (home + 1) }) →
    Stands m (some (.literal fn home)) v

/-- Words other than the one that names the copy of the frame do not matter. -/
theorem Stands.of_slot (h : Stands m blk v) (hh : m₁.heap = m.heap)
    (hs : ∀ fn home, blk = some (.literal fn home) → m₁.slot (home + 1) = m.slot (home + 1)) : Stands m₁ blk v := by
  cases h with
  | none => exact .none
  | proc v => exact .proc v
  | symbol hv hr => exact .symbol hv (hh ▸ hr)
  | literal hv hr =>
    rw [← hs _ _ rfl, ← hh] at hr
    exact .literal hv hr

/-- The stack is as it was, but for words that name the copies of frames a literal block lives in. -/
structure Captured (blk : Option Block) (fs : List Nat) (m m₁ : Machine) : Prop where
  rest : m₁.withMemory m = m
  len : m₁.context.stack.len = m.context.stack.len
  capacity : m₁.context.stack.capacity = m.context.stack.capacity
  slot : ∀ i, m₁.slot i = m.slot i ∨
    Block.isLiteral blk = true ∧ (m.slot i).isRef = false ∧ ∃ f, m.CodeFrame fs f ∧ i = f + 1
  inv : m₁.heap.Inv
  objects : m.KeepsObjects m₁

theorem Captured.refl (hi : m.heap.Inv) : Captured blk fs m m := ⟨rfl, rfl, rfl, fun _ => .inl rfl, hi, fun _ _ hr => hr⟩

theorem Captured.of_moved {b : Nat} (h : m.Moved m₁ fs b) (hb : Block.isLiteral blk = true) : Captured blk fs m m₁ where
  rest := h.rest
  len := h.len
  capacity := h.capacity
  slot i := (h.slot i).imp_right fun ⟨hr, f, hf, _, hi⟩ => ⟨hb, hr, f, hf, hi⟩
  inv := h.inv
  objects := h.objects

theorem Captured.alloc {n : Nat} (h : Captured blk fs m m₁) (hn : m₁.heap.pages.size < n) (o : Object) :
    Exec.Ends (alloc o) m₁ n fun v m₂ =>
      Captured blk fs m m₂ ∧ v.isRef = true ∧ m₂.heap.read v.toRef = .ok o ∧ ∀ i, m₂.slot i = m₁.slot i :=
  alloc_ends h.inv hn fun _ _ hv => ⟨⟨h.rest, h.len, h.capacity, h.slot, hv.inv,
    h.objects.trans fun w o' hw => hv.kept w.toRef o' hw⟩, hv.isRef, hv.read, fun _ => rfl⟩

/-- A literal block can become a Proc as long as its frame is there. -/
theorem blockToProc_ends (hi : m.heap.Inv)
    (hb : ∀ fn home, blk = some (.literal fn home) → m.WellFormed fs ∧ m.CodeFrame fs home) :
    Exec.Ends (blockToProc blk) m (m.heap.pages.size + 2 * fs.length + 1) fun v m₁ =>
      Captured blk fs m m₁ ∧ Stands m₁ blk v := by
  match blk, hb with
  | none, _ => exact .of_ok rfl ⟨.refl hi, .none⟩
  | some (.proc v), _ => exact .of_ok rfl ⟨.refl hi, .proc v⟩
  | some (.symbol name), _ =>
    have hc : Captured (some (.symbol name)) fs m m := .refl hi
    refine (hc.alloc (by omega) _).imp ?_
    rintro v m₁ ⟨hc, hv, hread, -⟩
    exact ⟨hc, .symbol hv hread⟩
  | some (.literal fn home), hb =>
    obtain ⟨hw, hf⟩ := hb fn home rfl
    have hnamed := (hw.linked home hf).named
    have hframe := Value.isFrame_frameAt home
    have hhigh := (hw.frames.placed hf.1).high
    rw [frameEnd_code hf.2] at hhigh
    have hends : Exec.Ends (moveToHeap (.frameAt home)) m (m.heap.pages.size + 2 * fs.length) fun w m₁ =>
        m.Escaped m₁ fs (home + 1) (.frameAt home) w ∧ m₁.heap.pages.size ≤ m.heap.pages.size + 2 * fs.length :=
      Exec.Ends.step (show Exec.stack m = .ok m.context.stack m from rfl)
        (escape_ends (m.context.stack.capacity + 2) (home + 1) (by omega) hw
          (.inr (.inl ⟨hframe, hnamed.symm ▸ hf, by rw [hnamed]; omega⟩)))
    refine (hends.of_le (Nat.le_succ _)).bind fun w m₁ ⟨he, hpages⟩ => ?_
    obtain ⟨top, ht⟩ : ∃ top, m₁.Enclosed w top := by
      rcases he.link with ⟨hn, -⟩ | ⟨-, ht⟩
      · rw [Value.isNil_frameAt] at hn
        cases hn
      · exact ht
    obtain ⟨s, hs, hsh, -⟩ := ht.scope
    have hcopy : m₁.slot (home + 1) = w := by
      have := he.copy hframe
      rwa [hnamed] at this
    have hself : (Env.heap s.self).self m₁ = .ok s.layer.self m₁ := by
      rw [hsh.self]
      exact (reads_scope hs hsh).self
    have hc : Captured (some (.literal fn home)) fs m m₁ := .of_moved he.moved rfl
    refine .step (asScope_apply hs) (.step hself ((hc.alloc (by omega) _).imp ?_))
    rintro v m₂ ⟨hc, hv, hread, hslot⟩
    rw [← hcopy, ← hslot] at hread
    exact ⟨hc, .literal hv hread⟩

end RubyMachine
