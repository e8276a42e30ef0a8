import RubyMachine.Proofs.Computation
import RubyMachine.Proofs.Heap.Cells

/-! What holds of a heap between any two operations. -/

namespace RubyMachine

variable {α : Type}

/-! ## Pages -/

namespace Page

structure Ok (p : Page α) : Prop where
  used_le : p.used ≤ Heap.pageCells
  fresh : ∀ c, p.used ≤ c → (p.cellAt c).obj = none ∧ (p.cellAt c).free = false
  taken : ∀ c, c < p.used → (p.cellAt c).free = (p.cellAt c).obj.isNone
  marked : ∀ c, (p.cellAt c).marked = true → (p.cellAt c).obj.isSome = true
  live : p.live = p.count (·.obj.isSome)

theorem cellAt_empty (c : Nat) : ({} : Page α).cellAt c = {} := cellAt_of_le (Nat.zero_le c)

theorem count_empty {f : Cell α → Bool} (hf : f {} = false) : ({} : Page α).count f = 0 :=
  count_eq_zero.2 fun c _ => by rw [cellAt_empty, hf]

theorem ok_empty : ({} : Page α).Ok where
  used_le := Nat.zero_le _
  fresh c _ := by rw [cellAt_empty]; exact ⟨rfl, rfl⟩
  taken c h := absurd h (Nat.not_lt_zero c)
  marked c h := by rw [cellAt_empty] at h; cases h
  live := (count_empty rfl).symm

namespace Ok

variable {p : Page α}

theorem obj_of_free (hp : p.Ok) {c : Nat} (hc : (p.cellAt c).free = true) : (p.cellAt c).obj = none := by
  by_cases h : c < p.used
  · simpa [hc] using hp.taken c h
  · exact (hp.fresh c (Nat.not_lt.1 h)).1

theorem lt_used_of_free (hp : p.Ok) {c : Nat} (hc : (p.cellAt c).free = true) : c < p.used := by
  by_contra h
  rw [(hp.fresh c (Nat.not_lt.1 h)).2] at hc
  cases hc

theorem lt_used_of_obj (hp : p.Ok) {c : Nat} (hc : (p.cellAt c).obj.isSome = true) : c < p.used := by
  by_contra h
  rw [(hp.fresh c (Nat.not_lt.1 h)).1] at hc
  cases hc

theorem not_marked (hp : p.Ok) {c : Nat} (hc : (p.cellAt c).obj = none) : (p.cellAt c).marked = false := by
  by_contra h
  have := hp.marked c (by simpa using h)
  rw [hc] at this
  cases this

theorem not_free_of_obj (hp : p.Ok) {c : Nat} (hc : (p.cellAt c).obj.isSome = true) :
    (p.cellAt c).free = false := by
  by_contra h
  rw [hp.obj_of_free (by simpa using h)] at hc
  cases hc

end Ok

/-- The page with an object placed in cell `c` and `used` cells handed out. -/
def fill (p : Page α) (c used : Nat) (obj : α) : Page α :=
  { p.modifyCell c fun x => { x with obj := some obj, free := false, next := -1 } with
    used, live := p.live + 1 }

theorem fill_with_used (p : Page α) (c used used' : Nat) (obj : α) :
    fill { p with used := used' } c used obj = p.fill c used obj := by
  unfold fill modifyCell
  split_ifs <;> rfl

theorem cellAt_fill (p : Page α) (c used d : Nat) (obj : α) : (p.fill c used obj).cellAt d =
    if d = c then { p.cellAt c with obj := some obj, free := false, next := -1 } else p.cellAt d :=
  cellAt_modifyCell p c d _

theorem count_fill (f : Cell α → Bool) (p : Page α) {c : Nat} (used : Nat) (obj : α)
    (hc : c < Heap.pageCells) : (p.fill c used obj).count f + (f (p.cellAt c)).toNat =
      p.count f + (f { p.cellAt c with obj := some obj, free := false, next := -1 }).toNat := by
  have he : (p.fill c used obj).count f =
      (p.modifyCell c fun x => { x with obj := some obj, free := false, next := -1 }).count f :=
    count_congr fun _ _ => rfl
  rw [he]
  exact count_modifyCell f p _ hc

/-- The cell held nothing and was handed out before or is the next one to hand out. -/
theorem Ok.fill {p : Page α} (hp : p.Ok) {c used : Nat} (hmax : used ≤ Heap.pageCells)
    (hobj : (p.cellAt c).obj = none) (hle : p.used ≤ used) (hlt : c < used)
    (hnew : ∀ d, p.used ≤ d → d < used → d = c) (obj : α) : (p.fill c used obj).Ok := by
  have hcell := fun d => cellAt_fill p c used d obj
  constructor
  · exact hmax
  · intro d hd
    rw [hcell, if_neg (by simp only [Page.fill] at hd; omega)]
    exact hp.fresh d (hle.trans hd)
  · intro d hd
    rw [hcell]
    split_ifs with hdc
    · rfl
    · exact hp.taken d (by by_contra h; exact hdc (hnew d (Nat.not_lt.1 h) hd))
  · intro d hd
    rw [hcell] at hd ⊢
    split_ifs at hd ⊢ with hdc
    · rfl
    · exact hp.marked d hd
  · have := count_fill (·.obj.isSome) p used obj (hlt.trans_le hmax)
    simp only [hobj, Option.isSome_none, Bool.toNat_false, Option.isSome_some, Bool.toNat_true] at this
    simp only [Page.fill, hp.live] at this ⊢
    omega

end Page

/-! ## The free list -/

namespace Heap

/-- The cells that a link leads to, one after the other. -/
inductive Chain (next : Nat × Nat → Int32) : Int32 → List (Nat × Nat) → Prop where
  | done {link : Int32} : link < 0 → Chain next link []
  | cell {link : Int32} {l : List (Nat × Nat)} :
      0 ≤ link → Chain next (next (splitLink link)) l → Chain next link (splitLink link :: l)

def next (h : Heap α) (x : Nat × Nat) : Int32 := (h.cellAt x.1 x.2).next

theorem Chain.congr {next next' : Nat × Nat → Int32} {link : Int32} {l : List (Nat × Nat)}
    (hc : Chain next link l) (he : ∀ x ∈ l, next' x = next x) : Chain next' link l := by
  induction hc with
  | done hneg => exact .done hneg
  | @cell link l hpos _ ih =>
    refine .cell hpos ?_
    rw [he _ (List.mem_cons_self ..)]
    exact ih fun x hx => he x (List.mem_cons_of_mem _ hx)

theorem Chain.tail {next : Nat × Nat → Int32} {link : Int32} {x : Nat × Nat} {l : List (Nat × Nat)}
    (hc : Chain next link (x :: l)) : Chain next (next x) l := by
  cases hc with
  | cell _ hc => exact hc

theorem Chain.unique {next : Nat × Nat → Int32} {link : Int32} {l l' : List (Nat × Nat)}
    (hc : Chain next link l) (hc' : Chain next link l') : l = l' := by
  induction hc generalizing l' with
  | done hneg =>
    cases hc' with
    | done _ => rfl
    | cell hpos _ => exact absurd hneg (Int32.not_lt.2 hpos)
  | cell hpos _ ih =>
    cases hc' with
    | done hneg => exact absurd hneg (Int32.not_lt.2 hpos)
    | cell _ hc' => rw [ih hc']

/-- A link of 32 bits names its cell, unless the number of the cell is too large: then it is negative
and ends a list. -/
theorem linkTo_cases {p c : Nat} (hp : p < maxPages) (hc : c < pageCells) :
    (p * pageCells + c < 2 ^ 31 ∧ 0 ≤ linkTo p c ∧ splitLink (linkTo p c) = (p, c)) ∨
      (2 ^ 31 ≤ p * pageCells + c ∧ linkTo p c < 0) := by
  simp only [maxPages, pageCells] at hp hc ⊢
  by_cases hlt : p * 4032 + c < 2 ^ 31
  · left
    have hint : (linkTo p c).toInt = (p * 4032 + c : Nat) := Int32.toInt_ofNat_of_lt hlt
    refine ⟨hlt, ?_, ?_⟩
    · rw [Int32.le_iff_toInt_le, hint]
      exact Int.natCast_nonneg _
    · simp only [splitLink, hint, Int.toNat_natCast, pageCells, Prod.mk.injEq]
      omega
  · right
    refine ⟨Nat.not_lt.1 hlt, ?_⟩
    rw [Int32.lt_iff_toInt_lt, linkTo, Int32.toInt_ofNat', pageCells]
    simp only [Int.bmod, Int32.size, Int32.toInt_zero]
    omega

structure FreeList (h : Heap α) (l : List (Nat × Nat)) : Prop where
  chain : Chain h.next h.freeHead l
  nodup : l.Nodup
  free : ∀ x ∈ l, (h.cellAt x.1 x.2).free = true
  length_le : l.length ≤ h.freeCount
  /-- While links cannot overflow, no free cell is left out. -/
  full : h.pages.size * pageCells ≤ 2 ^ 31 →
    (∀ p c, (h.cellAt p c).free = true → (p, c) ∈ l) ∧ l.length = h.freeCount

/-! ## Heaps -/

/-- All that does not depend on the links. -/
structure Core (h : Heap α) : Prop where
  size_le : h.pages.size ≤ maxPages
  page : ∀ p, (h.pageAt p).Ok
  live : h.live = h.total Page.live
  marks : h.markCount = h.total (Page.count (·.marked))
  nodup_freePages : h.freePages.Nodup
  mem_freePages : ∀ p, p ∈ h.freePages ↔ p < h.pages.size ∧ (h.pageAt p).used = 0
  current : ∀ p, h.current = some p → p < h.pages.size ∧ 0 < (h.pageAt p).used
  filling : ∀ p, 0 < (h.pageAt p).used → (h.pageAt p).used < pageCells → h.current = some p

structure Inv (h : Heap α) : Prop extends Core h where
  freeList : ∃ l, h.FreeList l

theorem lt_size_of_used {h : Heap α} {p : Nat} (hp : 0 < (h.pageAt p).used) : p < h.pages.size := by
  by_contra hle
  rw [pageAt_of_le (Nat.not_lt.1 hle)] at hp
  cases hp

theorem Core.live_eq {h : Heap α} (hi : h.Core) : h.live = h.total (Page.count (·.obj.isSome)) :=
  hi.live.trans (total_congr rfl fun p _ => (hi.page p).live)

theorem Core.in_range {h : Heap α} (hi : h.Core) {p c : Nat} (hc : (h.cellAt p c).obj.isSome = true) :
    p < h.pages.size ∧ c < pageCells := by
  have hu := (hi.page p).lt_used_of_obj hc
  exact ⟨lt_size_of_used (Nat.zero_lt_of_lt hu), hu.trans_le (hi.page p).used_le⟩

/-- The marks set, counted one by one, are as many as were counted while they were set. -/
theorem Core.countMarks_eq {h : Heap α} (hi : h.Core) : h.countMarks = h.markCount := by
  have hpages : h.pages.toList = (List.range h.pages.size).map h.pageAt := by
    apply List.ext_getElem
    · simp
    · intro i hi _
      have hi' : i < h.pages.size := by simpa using hi
      simp [pageAt, Array.getD, hi']
  have hsum : ∀ (f : Page α → Nat) (n : Nat),
      ((List.range n).map h.pageAt).foldl (fun m p => m + f p) 0 = ∑ p ∈ Finset.range n, f (h.pageAt p) := by
    intro f n
    induction n with
    | zero => rfl
    | succ n ih =>
      rw [List.range_succ, List.map_append, List.foldl_append, ih, Finset.sum_range_succ]
      rfl
  rw [countMarks, ← Array.foldl_toList, hpages, hsum, hi.marks]
  refine Finset.sum_congr rfl fun p _ => Page.count_eq_countP rfl fun c hc => ?_
  exact (hi.page p).not_marked ((hi.page p).fresh c ((hi.page p).used_le.trans hc)).1

theorem inv_new (threshold : Int) (debug : Bool) : Inv (new threshold debug : Heap α) := by
  have hpage : ∀ p, (new threshold debug : Heap α).pageAt p = {} := fun p => pageAt_of_le (Nat.zero_le p)
  refine ⟨⟨?_, ?_, ?_, ?_, ?_, ?_, ?_, ?_⟩, ?_⟩
  · exact Nat.zero_le _
  · intro p; rw [hpage]; exact Page.ok_empty
  · rfl
  · rfl
  · exact List.nodup_nil
  · intro p; simp [new]
  · intro p hp; cases hp
  · intro p hp; rw [hpage] at hp; cases hp
  · refine ⟨[], .done (show (-1 : Int32) < 0 by decide), List.nodup_nil, by simp, Nat.zero_le _, fun _ => ⟨?_, rfl⟩⟩
    intro p c hc
    rw [cellAt_eq, hpage, Page.cellAt_empty] at hc
    cases hc

/-- Only some fields matter. -/
theorem Inv.congr {h h' : Heap α} (hi : h.Inv) (hp : h'.pages = h.pages) (hf : h'.freePages = h.freePages)
    (hc : h'.current = h.current) (hh : h'.freeHead = h.freeHead) (hn : h'.freeCount = h.freeCount)
    (hl : h'.live = h.live) (hm : h'.markCount = h.markCount) : h'.Inv := by
  cases h
  cases h'
  subst hp hf hc hh hn hl hm
  obtain ⟨l, hchain, hnd, hfree, hle, hfull⟩ := hi.freeList
  exact ⟨⟨hi.size_le, hi.page, hi.live, hi.marks, hi.nodup_freePages, hi.mem_freePages, hi.current,
    hi.filling⟩, l, hchain, hnd, hfree, hle, hfull⟩

end Heap

end RubyMachine
