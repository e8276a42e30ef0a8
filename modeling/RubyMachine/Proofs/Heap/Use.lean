import RubyMachine.Proofs.Heap.Reachability
import RubyMachine.Proofs.Heap.Sweeping
import RubyMachine.Proofs.Heap.Allocation
import RubyMachine.Proofs.Value.Layout

/-! Heaps in use: what holds after any sequence of operations. -/

namespace RubyMachine.Heap

variable {α : Type} {h h' : Heap α} {refs : α → List Value}

/-- The heaps that operations lead to, in any order. An operation that ends in a defect counts with what
it changed. `n` is the sum of what all sweeps freed. -/
inductive InUse (refs : α → List Value) : Nat → Heap α → Prop where
  | new (threshold : Int) (debug : Bool) : InUse refs 0 (new threshold debug)
  | alloc {n : Nat} {h : Heap α} (obj : α) : InUse refs n h → InUse refs n (after (alloc obj) h)
  | replace {n : Nat} {h h' : Heap α} {r : Ref} {obj : α} : InUse refs n h → h.replace r obj = .ok h' →
      InUse refs n h'
  | clearMarks {n : Nat} {h : Heap α} : InUse refs n h → InUse refs n h.clearMarks
  | markValue {n : Nat} {h : Heap α} (v : Value) : InUse refs n h → InUse refs n (after (markValue refs v) h)
  | markRef {n : Nat} {h : Heap α} (r : Ref) : InUse refs n h → InUse refs n (after (markRef refs r) h)
  | sweep {n : Nat} {h h' : Heap α} {freed : List α} : InUse refs n h → sweep h = .ok freed h' →
      InUse refs (n + freed.length) h'

/-- What every operation keeps: the invariant, and that no object is forgotten. -/
structure Balanced (n : Nat) (h : Heap α) : Prop where
  inv : h.Inv
  allocated : h.totalAllocated = h.live + n

theorem Balanced.setMark {n : Nat} {p c : Nat} (hb : Balanced n h) (hp : p < h.pages.size) (hc : c < pageCells)
    (hobj : (h.cellAt p c).obj.isSome = true) (hm : (h.cellAt p c).marked = false) :
    Balanced n (h.setMark p c) :=
  ⟨hb.inv.setMark hp hc hobj hm, hb.allocated⟩

theorem Balanced.alloc {n : Nat} (hb : Balanced n h) (obj : α) : Balanced n (after (alloc obj) h) := by
  rcases alloc_spec hb.inv obj with ⟨p, c, h', hrun, hp⟩ | ⟨-, hrun⟩
  · rw [after_of_ok hrun]
    refine ⟨hp.inv, ?_⟩
    rw [hp.allocated, hp.live, hb.allocated]
    omega
  · rw [after_of_error hrun]
    refine ⟨inv_countAllocation hb.inv, ?_⟩
    have := hb.allocated
    unfold countAllocation
    split_ifs <;> exact this

theorem Balanced.sweep {n : Nat} {freed : List α} (hb : Balanced n h) (hrun : sweep h = .ok freed h') :
    Balanced (n + freed.length) h' := by
  obtain ⟨freed', h₁, hrun', hs, hfreed⟩ := sweep_spec hb.inv.toCore
  cases hrun.symm.trans hrun'
  have hlen : freed.length = (h.places Cell.isDoomed h.pages.size).length := by
    simpa using congrArg List.length hfreed
  have hlive := hs.live_add hb.inv.toCore
  refine ⟨hs.inv, ?_⟩
  rw [hs.rest]
  have := hb.allocated
  simp only
  omega

theorem InUse.balanced {n : Nat} (hu : InUse refs n h) : Balanced n h := by
  induction hu with
  | new threshold debug => exact ⟨inv_new threshold debug, rfl⟩
  | alloc obj _ ih => exact ih.alloc obj
  | @replace n h h' r obj _ hr ih =>
    simp only [Heap.replace] at hr
    cases hread : h.read r with
    | error d => rw [hread] at hr; cases hr
    | ok o =>
      rw [hread] at hr
      cases hr
      exact ⟨ih.inv.update r _, ih.allocated⟩
  | clearMarks _ ih => exact ⟨ih.inv.clearMarks, ih.allocated⟩
  | markValue v _ ih => exact after_markValue (fun _ _ _ hb => hb.setMark) refs v ih
  | markRef r _ ih => exact after_markRef (fun _ _ _ hb => hb.setMark) refs r ih
  | sweep _ hrun ih => exact ih.sweep hrun

/-! ## The parts of a heap agree -/

theorem Placed.read_self {p c : Nat} {obj : α} (hp : Placed h h' p c obj) :
    h'.read (Ref.make (UInt64.ofNat p) (UInt64.ofNat c) (h.cellAt p c).gen) = .ok obj := by
  have hlt := hp.lt_size.trans_le hp.inv.size_le
  have hc := hp.lt_cells
  have hpage := Ref.page_make hlt (hc.trans (by decide)) (h.cellAt p c).gen
  have hcell := Ref.cell_make hlt (hc.trans (by decide)) (h.cellAt p c).gen
  have hgen := Ref.gen_make hlt (hc.trans (by decide)) (h.cellAt p c).gen
  rw [read_eq_ok, hpage, hcell, hgen, hp.cell, if_pos ⟨rfl, rfl⟩]
  exact ⟨hp.lt_size, hc, rfl, rfl, rfl⟩

theorem Placed.read_other {p c : Nat} {obj : α} (hp : Placed h h' p c obj) {r : Ref} {o : α} (hr : h.read r = .ok o) :
    h'.read r = .ok o := by
  obtain ⟨hlt, hc, hf, ho, hg⟩ := read_eq_ok.1 hr
  have hne : ¬ (r.page = p ∧ r.cell = c) := by
    rintro ⟨rfl, rfl⟩
    rw [hp.vacant] at ho
    cases ho
  rw [read_eq_ok, hp.cell, if_neg hne]
  exact ⟨hlt.trans_le hp.size, hc, hf, ho, hg⟩

/-- What is read after an object was placed is that object or was there before. -/
theorem Placed.read_cases {p c : Nat} {obj : α} (hp : Placed h h' p c obj) {r : Ref} {o : α} (hr : h'.read r = .ok o) :
    (r.page = p ∧ r.cell = c ∧ o = obj) ∨ h.read r = .ok o := by
  obtain ⟨-, hc, hf, ho, hg⟩ := read_eq_ok.1 hr
  rw [hp.cell] at hf ho hg
  split at ho
  · cases ho
    exact .inl ⟨(‹_ ∧ _› : _ ∧ _).1, (‹_ ∧ _› : _ ∧ _).2, rfl⟩
  · rename_i hne
    rw [if_neg hne] at hf hg
    refine .inr (read_eq_ok.2 ⟨?_, hc, hf, ho, hg⟩)
    by_contra hlt
    rw [cellAt_eq, pageAt_of_le (Nat.not_lt.1 hlt), Page.cellAt_empty] at ho
    cases ho

@[simp] theorem size_update (h : Heap α) (r : Ref) (f : α → α) : (h.update r f).pages.size = h.pages.size :=
  size_modifyPage h r.page _

theorem cellAt_update (h : Heap α) (r : Ref) (f : α → α) (p c : Nat) :
    (h.update r f).cellAt p c = { h.cellAt p c with
      obj := (h.cellAt p c).obj.map fun o => if p = r.page ∧ c = r.cell then f o else o } := by
  by_cases hp : r.page < h.pages.size
  · rw [update, cellAt_modifyCell h hp]
    split
    · rename_i he
      rw [he.1, he.2]
    · simp
  · rw [update_of_le (Nat.not_lt.1 hp)]
    split
    · rename_i he
      rw [cellAt_eq, pageAt_of_le (he.1 ▸ Nat.not_lt.1 hp), Page.cellAt_empty]
      rfl
    · simp

/-- A change of an object is seen through the references to its cell. -/
theorem read_update (h : Heap α) (r r' : Ref) (f : α → α) : (h.update r f).read r' =
    if r'.page = r.page ∧ r'.cell = r.cell then (h.read r').map f else h.read r' := by
  unfold read
  rw [size_update, cellAt_update]
  generalize h.cellAt r'.page r'.cell = cell
  split_ifs with hout he
  · rfl
  · rfl
  · cases hf : cell.free <;> cases ho : cell.obj <;> simp only [hf, ho, Option.map_none, Option.map_some]
    · rfl
    · split_ifs <;> rfl
    · rfl
    · rfl
  · rw [Option.map_id']

/-- An object goes into a cell that held none and is found by the new reference, or there is no room. -/
theorem alloc_cases (hi : h.Inv) (obj : α) :
    (∃ v h', alloc obj h = .ok v h' ∧ v.isRef = true ∧ Placed h h' v.toRef.page v.toRef.cell obj ∧
      h'.read v.toRef = .ok obj) ∨
    maxPages ≤ h.pages.size ∧ alloc obj h = .error (.heapExhausted h.pages.size) h.countAllocation := by
  rcases alloc_spec hi obj with ⟨p, c, h', hrun, hp⟩ | hfull
  · have hlt := hp.lt_size.trans_le hp.inv.size_le
    have hc := hp.lt_cells.trans (show pageCells < 2 ^ 12 by decide)
    refine .inl ⟨_, h', hrun, Value.isRef_ofRef _, ?_, ?_⟩
    · rwa [Ref.toRef_ofRef_make hlt hc, Ref.page_make hlt hc, Ref.cell_make hlt hc]
    · rw [Ref.toRef_ofRef_make hlt hc]
      exact hp.read_self
  · exact .inr hfull

/-- With room for one more page, an object goes into a cell that held none. -/
theorem alloc_ok (hi : h.Inv) (hs : h.pages.size < maxPages) (obj : α) : ∃ v h', alloc obj h = .ok v h' ∧
    v.isRef = true ∧ (h.cellAt v.toRef.page v.toRef.cell).obj = none ∧ h'.read v.toRef = .ok obj ∧
      ∀ r o, h.read r = .ok o → h'.read r = .ok o := by
  rcases alloc_cases hi obj with ⟨v, h', hrun, hv, hp, hread⟩ | ⟨hmax, -⟩
  · exact ⟨v, h', hrun, hv, hp.vacant, hread, fun r o => hp.read_other⟩
  · exact absurd hmax (Nat.not_le.2 hs)

theorem FreeList.exact {l : List (Nat × Nat)} (hi : h.Core) (hl : h.FreeList l)
    (hs : h.pages.size * pageCells ≤ 2 ^ 31) : l.length = h.freeCount ∧
      (∀ p c, (p, c) ∈ l ↔ (h.cellAt p c).free = true) ∧ ∀ x ∈ l, x.1 ∉ h.freePages := by
  refine ⟨(hl.full hs).2, fun p c => ⟨fun hx => hl.free _ hx, (hl.full hs).1 p c⟩, fun x hx hm => ?_⟩
  have hu := (hi.page x.1).lt_used_of_free (hl.free x hx)
  rw [((hi.mem_freePages x.1).1 hm).2] at hu
  cases hu

/-- How the free list, the empty pages, the page being filled and the counts fit together, and that an
object is placed without harm to any other. -/
theorem inUse_agrees {n : Nat} (hu : InUse refs n h) (hs : h.pages.size * pageCells < 2 ^ 31) :
    (∃ l, Chain h.next h.freeHead l ∧ l.Nodup ∧ l.length = h.freeCount ∧
      (∀ p c, (p, c) ∈ l ↔ (h.cellAt p c).free = true) ∧ ∀ x ∈ l, x.1 ∉ h.freePages) ∧
    h.live = Set.ncard {x : Nat × Nat | (h.cellAt x.1 x.2).obj.isSome = true} ∧
    (∀ p, (h.pageAt p).live = Set.ncard {c | ((h.pageAt p).cellAt c).obj.isSome = true}) ∧
    h.freePages.Nodup ∧ (∀ p, p ∈ h.freePages ↔ p < h.pages.size ∧ (h.pageAt p).used = 0) ∧
    (∀ p, 0 < (h.pageAt p).used → (h.pageAt p).used < pageCells → h.current = some p) ∧
    (∀ obj, ∃ v h', alloc obj h = .ok v h' ∧ v.isRef = true ∧ (h.cellAt v.toRef.page v.toRef.cell).obj = none ∧
      h'.read v.toRef = .ok obj ∧ ∀ r o, h.read r = .ok o → h'.read r = .ok o) ∧
    h.totalAllocated = h.live + n := by
  obtain ⟨hi, hb⟩ := hu.balanced
  obtain ⟨l, hl⟩ := hi.freeList
  obtain ⟨hlen, hmem, hpages⟩ := hl.exact hi.toCore hs.le
  refine ⟨⟨l, hl.chain, hl.nodup, hlen, hmem, hpages⟩, ?_, fun p => ?_, hi.nodup_freePages, hi.mem_freePages,
    hi.filling, alloc_ok hi ?_, hb⟩
  · rw [ncard_places (f := (·.obj.isSome)) fun p c => hi.in_range, length_places, hi.live_eq]
  · have hc : ∀ c, ((h.pageAt p).cellAt c).obj.isSome = true → c < pageCells := fun c hc => (hi.in_range hc).2
    rw [Page.ncard_eq_count (f := (·.obj.isSome)) hc, (hi.page p).live]
  · simp only [pageCells, maxPages] at hs ⊢
    omega

/-- The reference that the first handing out of a cell of the first page gives. -/
def firstRef (c : UInt64) : Value := .ofRef (.make 0 c 0)

/-- Two objects that refer to each other, and a third one. -/
def ring : Heap (List Value) :=
  (after (alloc []) (after (alloc [firstRef 0]) (after (alloc []) (new 0 true)))).update (firstRef 0).toRef
    fun _ => [firstRef 1]

theorem inUse_ring : InUse id 0 ring := by
  have hu : InUse id 0 (after (alloc []) (after (alloc [firstRef 0]) (after (alloc []) (new 0 true)))) :=
    .alloc [] (.alloc [firstRef 0] (.alloc [] (.new 0 true)))
  exact hu.replace (show replace _ (firstRef 0).toRef [firstRef 1] = .ok ring from rfl)

/-- After a sweep without marks all cells are free, the first one in front. -/
theorem sweep_ring_agrees : (after sweep ring).pages.size * pageCells < 2 ^ 31 ∧
    (after sweep ring).totalAllocated = (after sweep ring).live + 3 ∧ (after sweep ring).freeCount = 3 ∧
    ∃ v h', alloc [] (after sweep ring) = .ok v h' ∧ h'.read v.toRef = .ok [] := by
  have hsweep : sweep ring = .ok [[firstRef 1], [firstRef 0], []] (after sweep ring) := rfl
  have hs : (after sweep ring).pages.size * pageCells < 2 ^ 31 := by decide
  obtain ⟨-, -, -, -, -, -, halloc, hb⟩ := inUse_agrees (inUse_ring.sweep hsweep) hs
  obtain ⟨v, h', hrun, -, -, hread, -⟩ := halloc []
  exact ⟨hs, hb, rfl, v, h', hrun, hread⟩

end RubyMachine.Heap
