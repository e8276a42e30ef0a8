import RubyMachine.Proofs.Heap.Held
import RubyMachine.Proofs.Machine.Keeping

/-! Computations that leave every thread where it is: they change the stack of the running thread at most,
and give up fibers. -/

namespace RubyMachine

theorem Fiber.Kept.trans {f g h : Fiber} (hg : f.Kept g) (hh : g.Kept h) : f.Kept h where
  active := hh.active.trans hg.active
  context := by
    rcases hh.context with hc | hc
    · rcases hg.context with hc' | ⟨hc', hd⟩
      · exact .inl (hc.trans hc')
      · exact .inr ⟨hc.trans hc', hh.dead hd⟩
    · exact .inr hc
  dead hd := hh.dead (hg.dead hd)

namespace Machine.Steady

open Keeping

variable {m m' m'' : Machine} {α β : Type}

theorem refl (m : Machine) : m.Steady m := .of_stack _ rfl rfl rfl rfl

theorem trans (h : m.Steady m') (h' : m'.Steady m'') : m.Steady m'' where
  context := by
    obtain ⟨s, hs⟩ := h.context
    obtain ⟨s', hs'⟩ := h'.context
    exact ⟨s', by rw [hs', hs]⟩
  waiting := h'.waiting.trans h.waiting
  size := h.size.trans h'.size
  fibers i := (h.fibers i).trans (h'.fibers i)
  objects id hid := (h'.objects id hid).elim (fun h₁ => (h.objects id h₁).imp_right fun hs => hs.trans_le h'.size) .inr

theorem frame (h : m.Steady m') : m'.context.frame = m.context.frame := by
  obtain ⟨s, hs⟩ := h.context
  rw [hs]

theorem fiber (h : m.Steady m') : m'.context.fiber = m.context.fiber := by
  obtain ⟨s, hs⟩ := h.context
  rw [hs]

theorem temps (h : m.Steady m') : m'.context.temps = m.context.temps := by
  obtain ⟨s, hs⟩ := h.context
  rw [hs]

theorem konts (h : m.Steady m') : m'.context.konts = m.context.konts := by
  obtain ⟨s, hs⟩ := h.context
  rw [hs]

theorem of_heap {h : Heap Object} (hf : ∀ p c id, (h.cellAt p c).obj = some (.fiber id) → m.HasFiber id) :
    m.Steady { m with heap := h } where
  context := ⟨_, rfl⟩
  waiting := rfl
  size := le_rfl
  fibers _ := .refl _
  objects := fun id ⟨p, c, ho⟩ => .inl (hf p c id ho)

theorem of_fewer {h : Heap Object} (hf : m.heap.Fewer h) : m.Steady { m with heap := h } :=
  of_heap fun p c _ ho => ⟨p, c, hf p c _ ho⟩

theorem kept_fewer {x : HeapM Object α} (hx : ∀ h : Heap Object, h.Fewer (after x h)) : Kept m.Steady (Exec.onHeap x) := by
  intro m' hm
  refine hm.trans ?_
  have hf := hx m'.heap
  unfold after Exec.onHeap
  unfold after at hf
  dsimp only
  cases hr : x m'.heap with
  | ok a h => exact of_fewer (by rwa [hr] at hf)
  | error d h => exact of_fewer (by rwa [hr] at hf)

theorem kept_alloc {o : Object} (ho : ∀ id, o ≠ .fiber id) : Kept m.Steady (Exec.alloc o) := by
  intro m' hm
  refine hm.trans ?_
  unfold after Exec.alloc Exec.onHeap
  dsimp only
  cases hr : Heap.alloc o m'.heap with
  | ok v h => exact of_heap fun p c id h => ((Heap.held_alloc hr h).elim (⟨p, c, ·⟩) fun he => absurd he.symm (ho id))
  | error d h => exact of_fewer (Heap.fewer_alloc hr)

theorem kept_update (v : Value) {f : Object → Object} (hf : ∀ o id, f o = .fiber id → o = .fiber id) :
    Kept m.Steady (Exec.update v f) := by
  intro m' hm
  refine hm.trans (of_heap (h := m'.heap.update v.toRef f) fun p c id h => ?_)
  rcases Heap.held_update _ f h with ho | ⟨o, ho, he⟩
  · exact ⟨p, c, ho⟩
  · exact ⟨p, c, hf o id he ▸ ho⟩

/-- A new fiber is like one that is not there: it has not been started. -/
theorem kept_newFiber (body : Value) (iteration : Option Iteration) : Kept m.Steady (Exec.newFiber body iteration) := by
  intro m' hm
  refine hm.trans ?_
  cases hr : Heap.alloc (.fiber m'.fibers.size) m'.heap with
  | error d h =>
    have he : Exec.newFiber body iteration m' = .error d { m' with heap := h } := by
      simp only [Exec.newFiber, Exec.alloc, Exec.onHeap, bind_apply, get_apply, hr]
    exact after_of_error he ▸ of_fewer (Heap.fewer_alloc hr)
  | ok v h =>
    have he : Exec.newFiber body iteration m' = .ok v { m' with heap := h, fibers := m'.fibers.push { self := v, body, iteration } } := by
      simp only [Exec.newFiber, Exec.alloc, Exec.onHeap, bind_apply, get_apply, hr, modify_apply, pure_apply]
    rw [after_of_ok he]
    refine ⟨⟨_, rfl⟩, rfl, (Array.size_push _).ge.trans' (Nat.le_succ _), fun i => ?_, fun id => ?_⟩
    · simp only [Array.getD_eq_getD_getElem?, Array.getElem?_push]
      split
      · subst i
        rw [Array.getElem?_eq_none le_rfl]
        exact ⟨rfl, .inl rfl, fun h => nomatch h⟩
      · exact .refl _
    · rintro ⟨p, c, ho⟩
      rcases Heap.held_alloc hr ho with ho | ho
      · exact .inl ⟨p, c, ho⟩
      · cases ho
        exact .inr ((Nat.lt_succ_self _).trans_eq (Array.size_push _).symm)

theorem keeping_releaseFiber (m : Machine) {K : Known} {id : Nat} (hi : K.fib id) :
    Keeping m.Steady K (Exec.releaseFiber id) (Same K fun _ => True) := by
  refine (basics m.Steady).releaseFiberBy whole (fun id => changed fun m' _ hm => ⟨hm.trans ?_, trivial⟩)
    (fun s _ => changed fun m' _ hm => ⟨hm.trans (.of_stack _ rfl rfl rfl rfl), trivial⟩) hi
  refine ⟨⟨_, rfl⟩, rfl, Array.size_modify.ge, fun i => ?_, fun _ h => .inl h⟩
  rcases Logic.getD_modify m'.fibers id i (fun f => { f with state := .dead, context := none }) with h | ⟨-, h⟩
  · exact h ▸ .refl _
  · exact h ▸ ⟨rfl, .inr ⟨rfl, rfl⟩, fun _ => rfl⟩

theorem stable (m : Machine) : Stable m.Steady where
  alloc := kept_alloc
  update := kept_update
  setEnabled _ := kept_fewer fun _ => .of_cells fun _ _ => rfl
  classes hm := hm.trans (.of_stack _ rfl rfl rfl rfl)
  lookups hm := hm.trans (.of_stack _ rfl rfl rfl rfl)
  functions hm _ := hm.trans (.of_stack _ rfl rfl rfl rfl)
  addFunction hm _ := hm.trans (.of_stack _ rfl rfl rfl rfl)
  newFiber := kept_newFiber
  releaseFiber := keeping_releaseFiber m
  steady hm _ h _ := hm.trans h

theorem logic (m : Machine) : Logic (Keeping m.Steady) := (stable m).logic

theorem collect (m : Machine) {K : Known} : Keeping m.Steady K Exec.collect (Same K fun _ => True) := fun hK => by
  have heap {α : Type} {x : HeapM Object α} (hx : ∀ h : Heap Object, h.Fewer (after x h)) :
      Keeping m.Steady K (Exec.onHeap x) (Same K fun _ => True) :=
    of_kept (kept_fewer hx) fun _ _ _ _ _ => ⟨rfl, trivial⟩
  exact (logic m).collectBy hK.fib (heap Heap.fewer_clearMarks) (fun refs vs => heap fun h => Heap.fewer_markValues refs vs)
    (heap fun h => Heap.fewer_sweep) (heap fun h => .of_cells fun _ _ => rfl)
    (fun _ => of_kept (fun _ hm => hm.trans (.of_stack _ rfl rfl rfl rfl)) fun _ _ _ _ _ => ⟨rfl, trivial⟩) hK

end Machine.Steady

/-! ## Fibers that are there -/

/-- What is left to be done on a thread names fibers below `n`. -/
def Context.Drives (x : Context) (n : Nat) : Prop := ∀ id ∈ drivenFibers x.konts, id < n

theorem Context.Drives.mono {x : Context} {n n' : Nat} (h : x.Drives n) (hn : n ≤ n') : x.Drives n' :=
  fun id hid => (h id hid).trans_le hn

namespace Machine

/-- Every fiber that code can come to is there. -/
structure Numbered (m : Machine) : Prop where
  objects : ∀ id, m.HasFiber id → id < m.fibers.size
  running : m.context.Drives m.fibers.size
  waiting : ∀ x ∈ m.waiting, x.Drives m.fibers.size
  stored : ∀ i x, (m.fibers.getD i default).context = some x → x.Drives m.fibers.size

theorem Numbered.steady {m m' : Machine} (hn : m.Numbered) (h : m.Steady m') : m'.Numbered where
  objects i hi := (h.objects i hi).elim (fun h₁ => (hn.objects i h₁).trans_le h.size) id
  running := by
    unfold Context.Drives
    rw [h.konts]
    exact hn.running.mono h.size
  waiting x hx := (hn.waiting x (h.waiting ▸ hx)).mono h.size
  stored i x hx := by
    rcases (h.fibers i).context with hc | ⟨hc, -⟩
    · exact (hn.stored i x (hc ▸ hx)).mono h.size
    · cases hc.symm.trans hx

theorem Numbered.popKont {m : Machine} {k : Kont} {rest : List Kont} (hn : m.Numbered)
    (hk : m.context.konts = k :: rest) :
    { m with context.konts := rest }.Numbered ∧ ∀ id ∈ drivenFibers [k], id < m.fibers.size := by
  have hr := hn.running
  unfold Context.Drives at hr
  rw [hk, ← List.singleton_append, drivenFibers, List.filterMap_append] at hr
  exact ⟨{ hn with running := fun id hid => hr id (List.mem_append_right _ hid) },
    fun id hid => hr id (List.mem_append_left _ hid)⟩

end Machine

/-! ## Steady computations -/

namespace Exec

open Keeping

variable {α : Type}

/-- Where this ends well, threads are where they were. -/
def Stays (x : Exec α) : Prop := ∀ m a m', x m = .ok a m' → m.Steady m'

/-- What is kept from every machine on, whatever is known, and however many definitions may be replaced. -/
theorem steady_of_keeping {x : Exec α} {R : Known → α → Prop} {n : Nat} {m m' : Machine} {a : α}
    (hx : Keeping m.Steady (.anything n) x R) (h : x m = .ok a m') : m.Steady m' ∧ ∃ K', R K' a := by
  obtain ⟨K', -, -, hs, hR⟩ := hx (Known.all_anything n) m (.refl m)
  exact ⟨after_of_ok h ▸ hs, K', hR a m' h⟩

theorem stays_of_keeping {x : Exec α} {R : Known → α → Prop} (n : Nat)
    (hx : ∀ m : Machine, Keeping m.Steady (.anything n) x R) : x.Stays :=
  fun m _ _ h => (steady_of_keeping (hx m) h).1

end Exec

end RubyMachine
