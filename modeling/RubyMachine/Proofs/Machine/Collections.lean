import RubyMachine.Proofs.Heap.Retention
import RubyMachine.Proofs.Threads.Unwinding

/-! A collection loses nothing that the machine still gets at: not the words of its stack, nor what they lead to. -/

namespace RubyMachine

open Exec

variable {m m' : Machine} {v w : Value} {o : Object} {c : Collection} {i : Nat}

namespace Machine

/-- The value is a reference that the machine comes to, going on from its roots. -/
structure Retains (m : Machine) (v : Value) : Prop where
  isRef : v.isRef = true
  reaches : Heap.Reaches m.heap (Object.refs m.classes m.fibers) m.roots v.toRef

theorem Retains.field (h : m.Retains w) (hw : m.heap.read w.toRef = .ok o) (hv : v ∈ o.refs m.classes m.fibers)
    (hr : v.isRef = true) : m.Retains v :=
  ⟨hr, .step h.reaches hw hv hr⟩

/-- The machine comes to what the live part of its stack holds. -/
theorem Retains.slot (hi : i < m.context.stack.len) (hr : (m.slot i).isRef = true) : m.Retains (m.slot i) := by
  have hsize := m.context.stack.len_le
  have hlive : m.slot i ∈ m.context.stack.toList := by
    have hget : m.slot i = m.context.stack.slots[i] := by
      rw [Machine.slot, Array.getD_eq_getD_getElem?, Array.getElem?_eq_getElem (by omega), Option.getD_some]
    rw [Stack.toList, List.mem_take_iff_getElem]
    exact ⟨i, by rw [Array.length_toList]; omega, by rw [Array.getElem_toList, hget]⟩
  have hroot : m.slot i ∈ m.roots := by
    unfold Machine.roots
    refine List.mem_append_right _ (List.mem_flatMap.2 ⟨m.context, ?_, List.mem_append_left _ hlive⟩)
    exact List.mem_reverse.2 List.mem_cons_self
  exact ⟨hr, .root hroot hr⟩

/-- What a collection leaves as it is. -/
structure Collected (m m' : Machine) : Prop where
  context : m'.context = m.context
  functions : m'.functions = m.functions
  heap : m'.heap.Inv
  read : ∀ v o, m.Retains v → m.heap.read v.toRef = .ok o → m'.heap.read v.toRef = .ok o

end Machine

namespace Exec

theorem exists_of_onHeap {α : Type} {x : HeapM Object α} {a : α} (h : onHeap x m = .ok a m') :
    ∃ h', x m.heap = .ok a h' ∧ m' = m.withHeap h' := by
  unfold onHeap at h
  dsimp only at h
  split at h
  · cases h
    exact ⟨_, ‹_›, rfl⟩
  · cases h

/-- Giving up the fibers that were freed changes the fibers and the stacks in store only. -/
theorem releaseFreed_apply (freed : List Object) (m : Machine) : ∃ fibers pool,
    (freed.forM fun
      | .fiber id => releaseFiber id
      | _ => return ()) m = .ok () { m with fibers := fibers, pool := pool } := by
  rw [List.forM_eq_forM]
  induction freed generalizing m with
  | nil => exact ⟨_, _, rfl⟩
  | cons o freed ih =>
    rw [List.forM_cons]
    cases o with
    | fiber id =>
      obtain ⟨fibers, pool, hrun⟩ := releaseFiber_apply id m
      obtain ⟨fibers', pool', hrest⟩ := ih { m with fibers := fibers, pool := pool }
      exact ⟨fibers', pool', (bind_of_ok hrun).trans hrest⟩
    | _ => exact ih m

/-- A collection marks and sweeps the heap and gives up the fibers that were freed. -/
theorem exists_of_collect (h : collect m = .ok c m') : ∃ (h₁ h₂ : Heap Object) (freed : List Object)
    (fibers : Array Fiber) (pool : StackPool),
    Heap.markValues (Object.refs m.classes m.fibers) m.roots m.heap.clearMarks = .ok () h₁ ∧ Heap.sweep h₁ = .ok freed h₂ ∧
    m' = { m with heap := { h₂ with pending := false }, fibers := fibers, pool := pool,
                  collections := c :: m.collections } := by
  unfold collect at h
  obtain ⟨_, m₁, hclear, h⟩ := exists_of_bind h
  obtain ⟨h₁, hrun, rfl⟩ := exists_of_onHeap hclear
  cases hrun
  obtain ⟨_, _, hget, h⟩ := exists_of_bind h
  cases hget
  obtain ⟨_, _, hget, h⟩ := exists_of_bind h
  cases hget
  obtain ⟨_, _, hget, h⟩ := exists_of_bind h
  cases hget
  obtain ⟨_, m₂, hmark, h⟩ := exists_of_bind h
  obtain ⟨h₂, hmarked, rfl⟩ := exists_of_onHeap hmark
  obtain ⟨_, _, hget, h⟩ := exists_of_bind h
  cases hget
  split at h
  · obtain ⟨_, _, hthrow, -⟩ := exists_of_bind h
    cases hthrow
  obtain ⟨_, _, hget, h⟩ := exists_of_bind h
  cases hget
  obtain ⟨freed, m₃, hsweep, h⟩ := exists_of_bind h
  obtain ⟨h₃, hswept, rfl⟩ := exists_of_onHeap hsweep
  obtain ⟨_, m₄, hrelease, h⟩ := exists_of_bind h
  obtain ⟨fibers, pool, hrun⟩ := releaseFreed_apply freed ((m.withHeap m.heap.clearMarks).withHeap h₂ |>.withHeap h₃)
  cases hrun.symm.trans hrelease
  obtain ⟨_, m₅, hpending, h⟩ := exists_of_bind h
  obtain ⟨h₄, hrun, rfl⟩ := exists_of_onHeap hpending
  cases hrun
  obtain ⟨_, _, hget, h⟩ := exists_of_bind h
  cases hget
  cases h
  exact ⟨h₂, h₃, freed, fibers, pool, hmarked, hswept, rfl⟩

/-- What the machine comes to before a collection is as it was after it. -/
theorem collect_collected (hi : m.heap.Inv) (h : collect m = .ok c m') : m.Collected m' := by
  obtain ⟨h₁, h₂, freed, fibers, pool, hmark, hsweep, rfl⟩ := exists_of_collect h
  obtain ⟨hinv, hread⟩ := (Heap.markValues_marks hi.clearMarks hmark).sweep_keeps hsweep
  exact ⟨rfl, rfl, hinv.congr rfl rfl rfl rfl rfl rfl rfl, fun v o hv ho => hread _ _ hv.reaches ho⟩

theorem safepoint_context {u : Unit} (h : safepoint m = .ok u m') : m'.context = m.context := by
  unfold safepoint at h
  obtain ⟨_, _, hget, h⟩ := exists_of_bind h
  cases hget
  dsimp only at h
  split at h
  · obtain ⟨c, m₁, hcollect, h⟩ := exists_of_bind h
    cases h
    obtain ⟨_, _, _, _, _, _, _, rfl⟩ := exists_of_collect hcollect
    rfl
  · cases h
    rfl

end Exec

end RubyMachine
