import RubyMachine.Proofs.Heap.Use

/-! Collections of a heap in use: nothing that the roots reach is lost, and nothing else is left. -/

namespace RubyMachine.Heap

variable {α : Type} {h h' : Heap α} {refs : α → List Value} {roots : List Value}

/-! ## Collections -/

/-- Clears the marks, marks from the roots on and sweeps; gives the objects freed. -/
def collect (refs : α → List Value) (roots : List Value) : HeapM α (List α) := do
  modify clearMarks
  markRoots refs roots
  sweep

theorem clearMarks_clearMarks (h : Heap α) : h.clearMarks.clearMarks = h.clearMarks := by
  simp [clearMarks, Function.comp_def]

theorem isDoomed_eq (p c : Nat) :
    (h.cellAt p c).isDoomed = true ↔ (h.cellAt p c).obj.isSome = true ∧ ¬ h.IsMarked p c := by
  simp [Cell.isDoomed, IsMarked]

/-- Marking from the roots of a heap without marks marks what the roots reach. -/
theorem isMarked_iff {S : Ref → Prop} (hm : MarkedFrom refs S roots h.clearMarks h')
    (hS : ∀ r, S r ↔ Reaches h refs roots r) (p c : Nat) : h'.IsMarked p c ↔ ReachesCell h refs roots p c := by
  have hclear : ∀ p c, ¬ h.clearMarks.IsMarked p c := fun p c hm => by
    rw [IsMarked, cellAt_clearMarks] at hm
    cases hm
  constructor
  · intro hmark
    rcases hm.sound p c hmark with hold | ⟨r, hr, he⟩
    · exact absurd hold (hclear p c)
    · exact ⟨r, (hS r).1 hr, he⟩
  · rintro ⟨r, hr, rfl, rfl⟩
    induction hr with
    | root hv href => exact hm.roots _ hv href
    | @step r obj v _ hread hv href ih =>
      have ho := (read_eq_ok.1 hread).2.2.2.1
      refine hm.closed _ _ obj ih (hclear _ _) ?_ v hv href
      rw [cellAt_clearMarks]
      exact ho

/-- What a collection leaves. -/
structure Collected (refs : α → List Value) (roots : List Value) (h h' : Heap α) (freed : List α) : Prop where
  inv : h'.Inv
  size : h'.pages.size = h.pages.size
  marked : ∀ p c, h'.IsMarked p c ↔ ReachesCell h refs roots p c
  kept : ∀ p c, ReachesCell h refs roots p c → (h'.cellAt p c).obj = (h.cellAt p c).obj ∧
    (h'.cellAt p c).gen = (h.cellAt p c).gen
  gone : ∀ p c, ¬ ReachesCell h refs roots p c → (h'.cellAt p c).obj = none
  freed : ∃ places : List (Nat × Nat), places.Nodup ∧
    (∀ p c, (p, c) ∈ places ↔ (h.cellAt p c).obj.isSome = true ∧ ¬ ReachesCell h refs roots p c) ∧
    freed.map some = places.map fun x => (h.cellAt x.1 x.2).obj

theorem collect_spec (hi : h.Inv) (hv : ∀ r, Reaches h refs roots r → ∃ obj, h.read r = .ok obj) :
    ∃ freed h', collect refs roots h = .ok freed h' ∧ Collected refs roots h h' freed := by
  have hread : ∀ r, h.clearMarks.read r = h.read r :=
    read_of_clearMarks (by rw [clearMarks_clearMarks])
  have hclosed : Closed h.clearMarks refs (Reaches h refs roots) := fun r hr => by
    obtain ⟨obj, ho⟩ := hv r hr
    exact ⟨obj, (hread r).trans ho, fun v hv href => .step hr ho hv href⟩
  have hroots : ∀ v ∈ roots, v.isRef = true → Reaches h refs roots v.toRef := fun v hv href => .root hv href
  obtain ⟨h₁, hrun₁, hm⟩ := markRoots_spec hi.clearMarks hclosed hroots
  obtain ⟨freed, h₂, hrun₂, hs, hfreed⟩ := sweep_spec hm.inv.toCore
  have hiff := isMarked_iff hm fun _ => Iff.rfl
  have hcell : ∀ p c, h₁.cellAt p c = { h.cellAt p c with marked := (h₁.cellAt p c).marked } := fun p c => by
    rw [cellAt_of_clearMarks hm.same, cellAt_clearMarks]
  have hobj : ∀ p c, (h₁.cellAt p c).obj = (h.cellAt p c).obj := fun p c => by rw [hcell]
  refine ⟨freed, h₂, ?_, hs.inv, ?_, fun p c => ?_, fun p c hr => ?_, fun p c hr => ?_, ?_⟩
  · simp only [collect, bind_apply, modify_apply, hrun₁, hrun₂]
  · rw [hs.size, size_of_clearMarks hm.same, (sameShape_clearMarks h).size]
  · rw [IsMarked, hs.marked]
    exact hiff p c
  · have hk : (h₁.cellAt p c).isDoomed ≠ true := fun hd => ((isDoomed_eq p c).1 hd).2 ((hiff p c).2 hr)
    rw [hs.obj, hs.gen, Cell.swept, if_neg hk, hcell]
    exact ⟨rfl, rfl⟩
  · rw [hs.obj, Cell.swept]
    split_ifs with hd
    · rfl
    · by_contra hne
      exact hd ((isDoomed_eq p c).2 ⟨Option.isSome_iff_ne_none.2 hne, fun hmark => hr ((hiff p c).1 hmark)⟩)
  · refine ⟨h₁.places Cell.isDoomed h₁.pages.size, nodup_places _, fun p c => ?_, ?_⟩
    · rw [mem_places, isDoomed_eq, hiff, hobj]
      refine ⟨fun hm => hm.2.2, fun hd => ?_⟩
      obtain ⟨hp, hc⟩ := hi.in_range hd.1
      rw [size_of_clearMarks hm.same, (sameShape_clearMarks h).size]
      exact ⟨hp, hc, hd⟩
    · rw [hfreed]
      exact List.map_congr_left fun x _ => hobj x.1 x.2

namespace Collected

variable {freed : List α}

theorem read_of_reaches (hc : Collected refs roots h h' freed) {r : Ref} {obj : α} (hr : h.read r = .ok obj)
    (hreach : ReachesCell h refs roots r.page r.cell) : h'.read r = .ok obj := by
  obtain ⟨hp, hlt, -, ho, hg⟩ := read_eq_ok.1 hr
  obtain ⟨hobj, hgen⟩ := hc.kept _ _ hreach
  rw [ho] at hobj
  refine read_eq_ok.2 ⟨hc.size ▸ hp, hlt, ?_, hobj, hgen.trans hg⟩
  exact (hc.inv.page _).not_free_of_obj (by rw [← cellAt_eq, hobj]; rfl)

theorem read_of_not_reaches (hc : Collected refs roots h h' freed) {r : Ref} {obj : α} (hr : h.read r = .ok obj)
    (hreach : ¬ ReachesCell h refs roots r.page r.cell) : h'.read r = .error (.freedCell r) := by
  obtain ⟨hp, hlt, -⟩ := read_eq_ok.1 hr
  rw [read, if_neg (by rw [hc.size]; omega)]
  simp only [hc.gone _ _ hreach]
  cases (h'.cellAt r.page r.cell).free <;> rfl

theorem live_eq (hc : Collected refs roots h h' freed) (hv : ∀ r, Reaches h refs roots r → ∃ obj, h.read r = .ok obj) :
    h'.live = h'.markCount := by
  rw [hc.inv.live_eq, hc.inv.marks]
  refine total_congr rfl fun p _ => Page.count_congr fun c _ => ?_
  show (h'.cellAt p c).obj.isSome = (h'.cellAt p c).marked
  by_cases hr : ReachesCell h refs roots p c
  · have hm : (h'.cellAt p c).marked = true := (hc.marked p c).2 hr
    obtain ⟨r, hreach, rfl, rfl⟩ := hr
    obtain ⟨obj, hread⟩ := hv r hreach
    rw [hm, (hc.kept _ _ ⟨r, hreach, rfl, rfl⟩).1, (read_eq_ok.1 hread).2.2.2.1]
    rfl
  · have hm : ¬ h'.IsMarked p c := fun hm => hr ((hc.marked p c).1 hm)
    rw [hc.gone p c hr]
    exact (Bool.not_eq_true _ ▸ hm : (h'.cellAt p c).marked = false).symm

theorem markCount_eq (hc : Collected refs roots h h' freed) :
    h'.markCount = Set.ncard {x : Nat × Nat | ReachesCell h refs roots x.1 x.2} := by
  have hset : {x : Nat × Nat | ReachesCell h refs roots x.1 x.2} =
      {x : Nat × Nat | (h'.cellAt x.1 x.2).marked = true} := Set.ext fun x => (hc.marked x.1 x.2).symm
  rw [hset, ncard_places fun p c hm => hc.inv.in_range ((hc.inv.page p).marked c hm), length_places, hc.inv.marks]

end Collected

/-- A collection of a heap in use ends well, provided that the roots lead to good references only. Then
what they reach is kept, everything else that was there is freed once, and the counts agree. -/
theorem collect_exact {n : Nat} (hu : InUse refs n h)
    (hv : ∀ r, Reaches h refs roots r → ∃ obj, h.read r = .ok obj) :
    ∃ freed h', collect refs roots h = .ok freed h' ∧
      (∀ r obj, h.read r = .ok obj → (h'.read r = .ok obj ↔ ReachesCell h refs roots r.page r.cell) ∧
        (¬ ReachesCell h refs roots r.page r.cell → h'.read r = .error (.freedCell r))) ∧
      (∃ places : List (Nat × Nat), places.Nodup ∧
        (∀ p c, (p, c) ∈ places ↔ (h.cellAt p c).obj.isSome = true ∧ ¬ ReachesCell h refs roots p c) ∧
        freed.map some = places.map fun x => (h.cellAt x.1 x.2).obj) ∧
      h'.live = h'.markCount ∧ h'.markCount = h'.countMarks ∧
      h'.live = Set.ncard {x : Nat × Nat | ReachesCell h refs roots x.1 x.2} := by
  obtain ⟨freed, h', hrun, hc⟩ := collect_spec hu.balanced.inv hv
  refine ⟨freed, h', hrun, fun r obj hr => ⟨⟨fun hr' => ?_, hc.read_of_reaches hr⟩, hc.read_of_not_reaches hr⟩,
    hc.freed, hc.live_eq hv, hc.inv.countMarks_eq.symm, (hc.live_eq hv).trans hc.markCount_eq⟩
  by_contra hn
  rw [hc.read_of_not_reaches hr hn] at hr'
  cases hr'

theorem reaches_ring {r : Ref} (hr : Reaches ring id [firstRef 0] r) :
    r = (firstRef 0).toRef ∨ r = (firstRef 1).toRef := by
  have h0 : ring.read (firstRef 0).toRef = .ok [firstRef 1] := rfl
  have h1 : ring.read (firstRef 1).toRef = .ok [firstRef 0] := rfl
  induction hr with
  | root hv _ => rw [List.mem_singleton.1 hv]; exact Or.inl rfl
  | step _ hread hv _ ih =>
    rcases ih with rfl | rfl
    · rw [h0] at hread
      cases hread
      rw [List.mem_singleton.1 hv]
      exact Or.inr rfl
    · rw [h1] at hread
      cases hread
      rw [List.mem_singleton.1 hv]
      exact Or.inl rfl

theorem collect_ring : (∀ r, Reaches ring id [firstRef 0] r → ∃ obj, ring.read r = .ok obj) ∧
    ∃ freed h', collect id [firstRef 0] ring = .ok freed h' ∧ h'.read (firstRef 0).toRef = .ok [firstRef 1] ∧
      h'.read (firstRef 2).toRef = .error (.freedCell (firstRef 2).toRef) := by
  have hv : ∀ r, Reaches ring id [firstRef 0] r → ∃ obj, ring.read r = .ok obj := fun r hr => by
    rcases reaches_ring hr with rfl | rfl
    · exact ⟨_, rfl⟩
    · exact ⟨_, rfl⟩
  obtain ⟨freed, h', hrun, hread, -⟩ := collect_exact inUse_ring hv
  refine ⟨hv, freed, h', hrun, (hread _ _ rfl).1.2 ⟨_, .root (List.mem_singleton.2 rfl) (by decide), rfl, rfl⟩,
    (hread _ [] rfl).2 ?_⟩
  rintro ⟨r, hr, -, hcell⟩
  rcases reaches_ring hr with rfl | rfl
  · exact absurd hcell (by decide)
  · exact absurd hcell (by decide)

end RubyMachine.Heap
