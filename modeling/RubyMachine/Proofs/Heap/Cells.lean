import Mathlib.Tactic
import RubyMachine.Heap.Collect

/-! Cells and pages as functions of their numbers. What an operation does to a heap is said by what it
does to `cellAt` and `pageAt`; cells are counted over all places of a page, touched or not. -/

namespace RubyMachine

variable {α : Type}

namespace Page

def cellAt (p : Page α) (c : Nat) : Cell α := p.cells.getD c {}

theorem cellAt_of_le {p : Page α} {c : Nat} (h : p.cells.size ≤ c) : p.cellAt c = {} := by
  simp [cellAt, Array.getD, Nat.not_lt.2 h]

theorem cellAt_modifyCell (p : Page α) (i j : Nat) (f : Cell α → Cell α) :
    (p.modifyCell i f).cellAt j = if j = i then f (p.cellAt i) else p.cellAt j := by
  unfold modifyCell
  split_ifs with hi hj hj
  · subst hj
    simp only [cellAt, Array.getD_eq_getD_getElem?, Array.getElem?_modify, if_true]
    simp [hi]
  · simp [cellAt, Array.getD_eq_getD_getElem?, Array.getElem?_modify, Ne.symm hj]
  · subst hj
    rw [cellAt_of_le (Nat.not_lt.1 hi)]
    have hsz : (p.cells ++ Array.replicate (j - p.cells.size) (default : Cell α)).size = j := by
      simp; omega
    simp only [cellAt, Array.getD_eq_getD_getElem?, Array.getElem?_push, hsz, if_true, Option.getD_some]
  · have hsz : (p.cells ++ Array.replicate (i - p.cells.size) (default : Cell α)).size = i := by
      simp; omega
    simp only [cellAt, Array.getD_eq_getD_getElem?, Array.getElem?_push, hsz, hj, if_false,
      Array.getElem?_append]
    split_ifs with hlt
    · rfl
    · rw [Array.getElem?_eq_none (Nat.not_lt.1 hlt), Array.getElem?_replicate]
      split_ifs <;> rfl

@[simp] theorem used_modifyCell (p : Page α) (i : Nat) (f : Cell α → Cell α) :
    (p.modifyCell i f).used = p.used := by
  unfold modifyCell; split_ifs <;> rfl

@[simp] theorem live_modifyCell (p : Page α) (i : Nat) (f : Cell α → Cell α) :
    (p.modifyCell i f).live = p.live := by
  unfold modifyCell; split_ifs <;> rfl

/-- How many places of a page satisfy `f`. -/
def count (f : Cell α → Bool) (p : Page α) : Nat :=
  (List.range Heap.pageCells).countP fun c => f (p.cellAt c)

end Page

/-- Changing a predicate at one number changes a count by what it says there. -/
theorem countP_range_of_agree {f g : Nat → Bool} {i n : Nat} (hi : i < n)
    (h : ∀ j, j ≠ i → f j = g j) :
    (List.range n).countP f + (g i).toNat = (List.range n).countP g + (f i).toNat := by
  induction n with
  | zero => omega
  | succ n ih =>
    simp only [List.range_succ, List.countP_append, List.countP_singleton]
    by_cases hin : i = n
    · subst hin
      have hpre : (List.range i).countP f = (List.range i).countP g :=
        List.countP_congr fun j hj => by rw [h j (by have := List.mem_range.1 hj; omega)]
      rw [hpre]
      cases f i <;> cases g i <;> simp
    · have := ih (by omega)
      rw [h n (Ne.symm hin)]
      omega

theorem countP_range_of_false {f : Nat → Bool} {m n : Nat} (hmn : m ≤ n)
    (h : ∀ i, m ≤ i → i < n → f i = false) : (List.range m).countP f = (List.range n).countP f := by
  induction n, hmn using Nat.le_induction with
  | base => rfl
  | succ n hmn ih =>
    rw [List.range_succ, List.countP_append, List.countP_singleton, h n hmn (Nat.lt_succ_self n),
      ih fun i h1 h2 => h i h1 (by omega)]
    rfl

namespace Page

theorem count_congr {f g : Cell α → Bool} {p q : Page α}
    (h : ∀ c < Heap.pageCells, f (p.cellAt c) = g (q.cellAt c)) : p.count f = q.count g :=
  List.countP_congr fun c hc => by rw [h c (List.mem_range.1 hc)]

/-- Counts add up where, place by place, just one of two properties holds. -/
theorem count_add {f g k : Cell α → Bool} {p q r : Page α}
    (h : ∀ c, (f (p.cellAt c)).toNat = (g (q.cellAt c)).toNat + (k (r.cellAt c)).toNat) :
    p.count f = q.count g + r.count k := by
  unfold count
  induction List.range Heap.pageCells with
  | nil => rfl
  | cons c l ih =>
    have hc := h c
    simp only [List.countP_cons, ih]
    revert hc
    cases f (p.cellAt c) <;> cases g (q.cellAt c) <;> cases k (r.cellAt c) <;> simp <;> omega

theorem count_modifyCell (f : Cell α → Bool) (p : Page α) {i : Nat} (g : Cell α → Cell α)
    (hi : i < Heap.pageCells) :
    (p.modifyCell i g).count f + (f (p.cellAt i)).toNat = p.count f + (f (g (p.cellAt i))).toNat := by
  have := countP_range_of_agree (f := fun c => f ((p.modifyCell i g).cellAt c))
    (g := fun c => f (p.cellAt c)) hi fun j hj => by simp [cellAt_modifyCell, hj]
  simpa [count, cellAt_modifyCell] using this

theorem count_eq_zero {f : Cell α → Bool} {p : Page α} :
    p.count f = 0 ↔ ∀ c < Heap.pageCells, f (p.cellAt c) = false := by
  simp [count, List.countP_eq_zero]

theorem ncard_eq_count {f : Cell α → Bool} {p : Page α} (hf : ∀ c, f (p.cellAt c) = true → c < Heap.pageCells) :
    Set.ncard {c | f (p.cellAt c) = true} = p.count f := by
  have hset : {c | f (p.cellAt c) = true} =
      (((List.range Heap.pageCells).filter fun c => f (p.cellAt c)).toFinset : Set Nat) := by
    ext c
    rw [Set.mem_ofPred_eq, List.coe_toFinset, Set.mem_ofPred_eq, List.mem_filter, List.mem_range]
    exact ⟨fun hc => ⟨hf c hc, hc⟩, fun hc => hc.2⟩
  rw [hset, Set.ncard_coe_finset, List.toFinset_card_of_nodup (List.nodup_range.filter _), count,
    List.countP_eq_length_filter]

theorem count_eq_countP {f : Cell α → Bool} {p : Page α} (hf : f {} = false)
    (hp : ∀ c, Heap.pageCells ≤ c → f (p.cellAt c) = false) : p.cells.toList.countP f = p.count f := by
  have hcells : p.cells.toList = (List.range p.cells.size).map p.cellAt := by
    apply List.ext_getElem
    · simp
    · intro i hi _
      have hi' : i < p.cells.size := by simpa using hi
      simp [cellAt, Array.getD, hi']
  rw [hcells, List.countP_map, count]
  rcases Nat.le_total p.cells.size Heap.pageCells with hle | hle
  · exact countP_range_of_false hle fun c hc _ => by simp [cellAt_of_le hc, hf]
  · exact (countP_range_of_false hle fun c hc _ => hp c hc).symm

end Page

namespace Heap

def pageAt (h : Heap α) (p : Nat) : Page α := h.pages.getD p {}

theorem cellAt_eq (h : Heap α) (p c : Nat) : h.cellAt p c = (h.pageAt p).cellAt c := rfl

theorem pageAt_of_le {h : Heap α} {p : Nat} (hp : h.pages.size ≤ p) : h.pageAt p = {} := by
  simp [pageAt, Array.getD, Nat.not_lt.2 hp]

@[simp] theorem size_modifyPage (h : Heap α) (p : Nat) (f : Page α → Page α) :
    (h.modifyPage p f).pages.size = h.pages.size := by
  simp [modifyPage]

theorem pageAt_modifyPage (h : Heap α) (p q : Nat) (f : Page α → Page α) :
    (h.modifyPage p f).pageAt q = if q = p ∧ p < h.pages.size then f (h.pageAt p) else h.pageAt q := by
  simp only [modifyPage, pageAt, Array.getD_eq_getD_getElem?, Array.getElem?_modify]
  by_cases hq : q = p
  · subst hq
    by_cases hs : q < h.pages.size
    · simp [hs]
    · simp [hs]
  · simp [hq, Ne.symm hq]

theorem cellAt_modifyCell (h : Heap α) {p : Nat} (hp : p < h.pages.size) (c q d : Nat)
    (f : Cell α → Cell α) :
    (h.modifyCell p c f).cellAt q d =
      if q = p ∧ d = c then f (h.cellAt p c) else h.cellAt q d := by
  rw [cellAt_eq, modifyCell, pageAt_modifyPage]
  by_cases hq : q = p
  · subst hq
    simp only [hp, and_self, if_true, Page.cellAt_modifyCell, true_and, cellAt_eq]
  · simp [hq, cellAt_eq]

/-- A total over the pages. -/
def total (h : Heap α) (f : Page α → Nat) : Nat := ∑ p ∈ Finset.range h.pages.size, f (h.pageAt p)

/-- Only one page counts for how a total changes when only one page changes. -/
theorem total_of_agree {h h' : Heap α} {f g : Page α → Nat} {p : Nat} (hp : p < h.pages.size)
    (hs : h'.pages.size = h.pages.size) (he : ∀ q, q ≠ p → f (h'.pageAt q) = g (h.pageAt q)) :
    h'.total f + g (h.pageAt p) = h.total g + f (h'.pageAt p) := by
  have hmem : p ∈ Finset.range h.pages.size := Finset.mem_range.2 hp
  have hrest : ∑ q ∈ (Finset.range h.pages.size).erase p, f (h'.pageAt q) =
      ∑ q ∈ (Finset.range h.pages.size).erase p, g (h.pageAt q) :=
    Finset.sum_congr rfl fun q hq => he q (Finset.ne_of_mem_erase hq)
  unfold total
  rw [hs, ← Finset.add_sum_erase _ _ hmem, ← Finset.add_sum_erase (Finset.range h.pages.size) _ hmem,
    hrest]
  omega

theorem total_congr {h h' : Heap α} {f g : Page α → Nat} (hs : h'.pages.size = h.pages.size)
    (he : ∀ q < h.pages.size, f (h'.pageAt q) = g (h.pageAt q)) : h'.total f = h.total g := by
  unfold total
  rw [hs]
  exact Finset.sum_congr rfl fun q hq => he q (Finset.mem_range.1 hq)

/-! ## Cells with a property -/

/-- The cells of the pages below `n` that satisfy `f`, the last page first. -/
def places (h : Heap α) (f : Cell α → Bool) (n : Nat) : List (Nat × Nat) :=
  (List.range n).reverse.flatMap fun p => ((List.range pageCells).filter fun c => f (h.cellAt p c)).map (Prod.mk p)

variable {h h' : Heap α} {f : Cell α → Bool}

theorem places_succ (n : Nat) : h.places f (n + 1) =
    ((List.range pageCells).filter fun c => f (h.cellAt n c)).map (Prod.mk n) ++ h.places f n := by
  simp [places, List.range_succ]

theorem mem_places {n p c : Nat} : (p, c) ∈ h.places f n ↔ p < n ∧ c < pageCells ∧ f (h.cellAt p c) = true := by
  simp [places]

theorem nodup_places (n : Nat) : (h.places f n).Nodup := by
  induction n with
  | zero => exact List.nodup_nil
  | succ n ih =>
    rw [places_succ, List.nodup_append]
    refine ⟨(List.nodup_range.filter _).map fun _ _ => by simp, ih, ?_⟩
    rintro x hx y hy rfl
    obtain ⟨c, -, rfl⟩ := List.mem_map.1 hx
    exact Nat.lt_irrefl _ (mem_places.1 hy).1

theorem places_congr {n : Nat} (he : ∀ p c, p < n → f (h'.cellAt p c) = f (h.cellAt p c)) :
    h'.places f n = h.places f n := by
  induction n with
  | zero => simp [places]
  | succ n ih =>
    rw [places_succ, places_succ, ih fun p c hp => he p c (hp.trans (Nat.lt_succ_self n)),
      List.filter_congr fun c _ => he n c (Nat.lt_succ_self n)]

theorem length_places : (h.places f h.pages.size).length = h.total (Page.count f) := by
  unfold total
  induction h.pages.size with
  | zero => simp [places]
  | succ n ih =>
    rw [places_succ, List.length_append, ih, Finset.sum_range_succ, List.length_map, Nat.add_comm, Page.count,
      List.countP_eq_length_filter]
    rfl

theorem ncard_places {n : Nat} (hf : ∀ p c, f (h.cellAt p c) = true → p < n ∧ c < pageCells) :
    Set.ncard {x : Nat × Nat | f (h.cellAt x.1 x.2) = true} = (h.places f n).length := by
  have hset : {x : Nat × Nat | f (h.cellAt x.1 x.2) = true} = ((h.places f n).toFinset : Set (Nat × Nat)) := by
    ext ⟨p, c⟩
    rw [Set.mem_ofPred_eq, List.coe_toFinset, Set.mem_ofPred_eq, mem_places]
    exact ⟨fun hc => ⟨(hf p c hc).1, (hf p c hc).2, hc⟩, fun hc => hc.2.2⟩
  rw [hset, Set.ncard_coe_finset, List.toFinset_card_of_nodup (nodup_places n)]

end Heap

end RubyMachine
