import RubyMachine.Proofs.Heap.Invariant

/-! Placing objects: a cell that holds nothing is found, filled, and no other cell changes. -/

namespace RubyMachine.Heap

variable {α : Type} {h h' : Heap α}

theorem pageAt_push (h : Heap α) (q : Nat) :
    pageAt { h with pages := h.pages.push {} } q = h.pageAt q := by
  simp only [pageAt, Array.getD_eq_getD_getElem?, Array.getElem?_push]
  split_ifs with hq
  · subst hq; simp
  · rfl

/-! ## A page with room -/

/-- What finding a page with room changes. -/
structure Bumped (h h' : Heap α) (p : Nat) : Prop where
  rest : h' = { h with pages := h'.pages, current := some p, freePages := h'.freePages }
  pageAt : ∀ q, h'.pageAt q = h.pageAt q
  size : h.pages.size ≤ h'.pages.size
  grows : h'.pages.size ≤ h.pages.size + 1
  size_le : h'.pages.size ≤ maxPages
  lt_size : p < h'.pages.size
  room : (h.pageAt p).used < pageCells
  nodup : h'.freePages.Nodup
  mem : ∀ q, q ∈ h'.freePages ↔ (q < h'.pages.size ∧ (h.pageAt q).used = 0) ∧ q ≠ p
  filling : ∀ q, 0 < (h.pageAt q).used → (h.pageAt q).used < pageCells → q = p
  total : ∀ f : Page α → Nat, f {} = 0 → h'.total f = h.total f

theorem bumpPage_next (hi : h.Inv)
    (hfull : ∀ q, 0 < (h.pageAt q).used → pageCells ≤ (h.pageAt q).used) :
    (∃ p h', bumpPage.next h = .ok p h' ∧ Bumped h h' p) ∨
      maxPages ≤ h.pages.size ∧ bumpPage.next h = .error (.heapExhausted h.pages.size) h := by
  have hnone : ∀ q p : Nat, 0 < (h.pageAt q).used → (h.pageAt q).used < pageCells → q = p :=
    fun q _ h0 hlt => absurd (hfull q h0) (Nat.not_le.2 hlt)
  cases hfp : h.freePages with
  | cons p rest =>
    left
    have hnd := hi.nodup_freePages
    rw [hfp, List.nodup_cons] at hnd
    have hp := (hi.mem_freePages p).1 (by rw [hfp]; exact List.mem_cons_self ..)
    refine ⟨p, { h with current := some p, freePages := rest }, by simp [bumpPage.next, hfp], ?_⟩
    refine ⟨rfl, fun _ => rfl, le_rfl, Nat.le_succ _, hi.size_le, hp.1, by rw [hp.2]; decide, hnd.2, fun q => ?_,
      fun q => hnone q p, fun f _ => rfl⟩
    have hq := hi.mem_freePages q
    rw [hfp, List.mem_cons] at hq
    constructor
    · intro hm
      exact ⟨hq.1 (Or.inr hm), fun he => hnd.1 (he ▸ hm)⟩
    · rintro ⟨hu, hne⟩
      exact (hq.2 hu).resolve_left hne
  | nil =>
    by_cases hsz : maxPages ≤ h.pages.size
    · right
      exact ⟨hsz, by simp [bumpPage.next, hfp, hsz]⟩
    · left
      have hpa := pageAt_push h
      refine ⟨h.pages.size, { h with pages := h.pages.push {}, current := some h.pages.size },
        by simp [bumpPage.next, hfp, hsz], ?_⟩
      refine ⟨by simp, hpa, by simp, by simp, by simp; omega, by simp, ?_, by simp [hfp], fun q => ?_,
        fun q => hnone q _, fun f hf => ?_⟩
      · rw [pageAt_of_le le_rfl]; exact Nat.succ_pos _
      · have hq := hi.mem_freePages q
        simp only [hfp, List.not_mem_nil, Array.size_push, false_iff] at hq ⊢
        rintro ⟨⟨hlt, hu⟩, hne⟩
        exact hq ⟨by omega, hu⟩
      · have he : ∀ q, f (Heap.pageAt { h with pages := h.pages.push {}, current := some h.pages.size } q) =
            f (h.pageAt q) := fun q => congrArg f (hpa q)
        simp only [total, he, Array.size_push, Finset.sum_range_succ, pageAt_of_le (le_refl h.pages.size), hf,
          Nat.add_zero]

theorem bumpPage_spec (hi : h.Inv) :
    (∃ p h', bumpPage h = .ok p h' ∧ Bumped h h' p) ∨
      maxPages ≤ h.pages.size ∧ bumpPage h = .error (.heapExhausted h.pages.size) h := by
  cases hcur : h.current with
  | none =>
    have he : bumpPage h = bumpPage.next h := by simp [bumpPage, hcur]
    rw [he]
    refine bumpPage_next hi fun q h0 => ?_
    by_contra hlt
    have := hi.filling q h0 (Nat.not_le.1 hlt)
    rw [hcur] at this
    cases this
  | some p =>
    by_cases hroom : (h.pageAt p).used < pageCells
    · left
      have hp := hi.current p hcur
      refine ⟨p, h, by simp only [bumpPage, bind_apply, get_apply, hcur, ite_apply']; exact if_pos hroom, ?_⟩
      refine ⟨by rw [← hcur], fun _ => rfl, le_rfl, Nat.le_succ _, hi.size_le, hp.1, hroom, hi.nodup_freePages,
        fun q => ?_, fun q h0 hlt => ?_, fun f _ => rfl⟩
      · rw [hi.mem_freePages]
        constructor
        · rintro ⟨hlt, hu⟩
          exact ⟨⟨hlt, hu⟩, by rintro rfl; omega⟩
        · exact And.left
      · have := hi.filling q h0 hlt
        rw [hcur] at this
        exact (Option.some.inj this).symm
    · have he : bumpPage h = bumpPage.next h := by
        simp only [bumpPage, bind_apply, get_apply, hcur, ite_apply']
        exact if_neg hroom
      rw [he]
      refine bumpPage_next hi fun q h0 => ?_
      by_contra hlt
      have := hi.filling q h0 (Nat.not_le.1 hlt)
      rw [hcur, Option.some.injEq] at this
      subst this
      exact hlt (Nat.not_lt.1 hroom)

/-! ## Filling a cell -/

/-- What placing an object in a cell changes. -/
structure Placed (h h' : Heap α) (p c : Nat) (obj : α) : Prop where
  lt_size : p < h'.pages.size
  lt_cells : c < pageCells
  size : h.pages.size ≤ h'.pages.size
  grows : h'.pages.size ≤ h.pages.size + 1
  vacant : (h.cellAt p c).obj = none
  cell : ∀ q d, h'.cellAt q d =
    if q = p ∧ d = c then { h.cellAt p c with obj := some obj, free := false, next := -1 }
    else h.cellAt q d
  live : h'.live = h.live + 1
  allocated : h'.totalAllocated = h.totalAllocated + 1
  inv : h'.Inv

theorem pageAt_fillCell (h : Heap α) {p : Nat} (hp : p < h.pages.size) (c q : Nat) (obj : α) :
    (h.fillCell p c obj).pageAt q =
      if q = p then (h.pageAt p).fill c (h.pageAt p).used obj else h.pageAt q := by
  have he : (h.fillCell p c obj).pageAt q =
      (h.modifyPage p fun pg => pg.fill c pg.used obj).pageAt q := by
    simp [fillCell, pageAt, modifyPage, Page.fill]
  rw [he, pageAt_modifyPage]
  by_cases hq : q = p <;> simp [hq, hp]

theorem cellAt_of_fill {p c used : Nat} {obj : α}
    (hpage : ∀ q, h'.pageAt q = if q = p then (h.pageAt p).fill c used obj else h.pageAt q) (q d : Nat) :
    h'.cellAt q d = if q = p ∧ d = c then { h.cellAt p c with obj := some obj, free := false, next := -1 }
      else h.cellAt q d := by
  rw [cellAt_eq, hpage]
  split_ifs with hq hqd hqd
  · rw [Page.cellAt_fill, if_pos hqd.2, cellAt_eq]
  · rw [Page.cellAt_fill, if_neg fun hd => hqd ⟨hq, hd⟩, hq, cellAt_eq]
  · exact absurd hqd.1 hq
  · rfl

/-- The part of placing an object that does not depend on where its cell comes from. `h₁` is the heap
with a page for the cell. -/
theorem placed_of {h₁ : Heap α} {p c used : Nat} {obj : α} (hi : h.Inv)
    (hmid : ∀ q, h₁.pageAt q = h.pageAt q) (htot : ∀ f : Page α → Nat, f {} = 0 → h₁.total f = h.total f)
    (hs : h'.pages.size = h₁.pages.size) (hle : h.pages.size ≤ h₁.pages.size)
    (hgrows : h₁.pages.size ≤ h.pages.size + 1) (hmax : h₁.pages.size ≤ maxPages) (hp : p < h₁.pages.size)
    (hc : used ≤ pageCells)
    (hpage : ∀ q, h'.pageAt q = if q = p then (h.pageAt p).fill c used obj else h.pageAt q)
    (hobj : (h.cellAt p c).obj = none) (hu : (h.pageAt p).used ≤ used) (hlt : c < used)
    (hnew : ∀ d, (h.pageAt p).used ≤ d → d < used → d = c)
    (hlive : h'.live = h.live + 1) (halloc : h'.totalAllocated = h.totalAllocated + 1)
    (hmark : h'.markCount = h.markCount) (hnd : h'.freePages.Nodup)
    (hmem : ∀ q, q ∈ h'.freePages ↔ q < h'.pages.size ∧ (h'.pageAt q).used = 0)
    (hcur : ∀ q, h'.current = some q → q < h'.pages.size ∧ 0 < (h'.pageAt q).used)
    (hfill : ∀ q, 0 < (h'.pageAt q).used → (h'.pageAt q).used < pageCells → h'.current = some q)
    (hfree : ∃ l, h'.FreeList l) : Placed h h' p c obj := by
  have hsame : ∀ q, q ≠ p → h'.pageAt q = h₁.pageAt q := fun q hq => by rw [hpage, if_neg hq, hmid]
  have hpp : h'.pageAt p = (h.pageAt p).fill c used obj := by rw [hpage, if_pos rfl]
  refine ⟨hs ▸ hp, hlt.trans_le hc, hs ▸ hle, hs ▸ hgrows, hobj, cellAt_of_fill hpage, hlive, halloc, ⟨hs ▸ hmax,
    fun q => ?_, ?_, ?_, hnd, hmem, hcur, hfill⟩, hfree⟩
  · rw [hpage]
    split_ifs with hq
    · exact (hi.page p).fill hc hobj hu hlt hnew obj
    · exact hi.page q
  · have := total_of_agree (f := Page.live) (g := Page.live) hp hs fun q hq => by rw [hsame q hq]
    rw [hpp, hmid, htot _ rfl, ← hi.live] at this
    simp only [Page.fill] at this
    omega
  · have hz : ({} : Page α).count (·.marked) = 0 := Page.count_empty rfl
    have := total_of_agree (f := Page.count (·.marked)) (g := Page.count (·.marked)) hp hs
      fun q hq => by rw [hsame q hq]
    have hcount := Page.count_fill (·.marked) (h.pageAt p) used obj (hlt.trans_le hc)
    rw [hpp, hmid, htot _ hz, ← hi.marks] at this
    simp only at hcount
    omega

/-! ## A cell of the free list -/

/-- The heap without the first cell of its free list. -/
def unlink (h : Heap α) (p c : Nat) : Heap α :=
  { h with freeHead := (h.cellAt p c).next, freeCount := h.freeCount - 1 }

theorem takeFree_spec (hi : h.Inv) (h0 : 0 ≤ h.freeHead) :
    ∃ p c l, h.FreeList ((p, c) :: l) ∧ takeFree h = .ok (p, c) (h.unlink p c) := by
  obtain ⟨l, hl⟩ := hi.freeList
  rcases hsplit : splitLink h.freeHead with ⟨p, c⟩
  have hchain := hl.chain
  generalize hlink : h.freeHead = link at hchain
  cases hchain with
  | done hneg => exact absurd h0 (Int32.not_le.2 (hlink ▸ hneg))
  | @cell _ l hpos _ =>
    rw [← hlink, hsplit] at hl
    have hfree : (h.cellAt p c).free = true := hl.free (p, c) (List.mem_cons_self ..)
    have hlt : p < h.pages.size := lt_size_of_used
      (Nat.zero_lt_of_lt ((hi.page p).lt_used_of_free hfree))
    have hobj : (h.cellAt p c).obj = none := (hi.page p).obj_of_free hfree
    refine ⟨p, c, l, hl, ?_⟩
    simp [takeFree, unlink, hsplit, Nat.not_le.2 hlt, hfree, hobj]

theorem freeList_unlink {p c used : Nat} {l : List (Nat × Nat)} {obj : α} (hl : h.FreeList ((p, c) :: l))
    (hpage : ∀ q, h'.pageAt q = if q = p then (h.pageAt p).fill c used obj else h.pageAt q)
    (hs : h'.pages.size = h.pages.size) (hhead : h'.freeHead = (h.cellAt p c).next)
    (hcount : h'.freeCount = h.freeCount - 1) : h'.FreeList l := by
  have hcell := cellAt_of_fill hpage
  have hnd := List.nodup_cons.1 hl.nodup
  have hne : ∀ x ∈ l, ¬ (x.1 = p ∧ x.2 = c) := fun x hx he =>
    hnd.1 (by rw [← he.1, ← he.2]; exact hx)
  constructor
  · rw [hhead]
    exact hl.chain.tail.congr fun x hx => by rw [Heap.next, hcell, if_neg (hne x hx)]; rfl
  · exact hnd.2
  · intro x hx
    rw [hcell, if_neg (hne x hx)]
    exact hl.free x (List.mem_cons_of_mem _ hx)
  · have := hl.length_le
    simp only [List.length_cons] at this
    omega
  · intro hbound
    rw [hs] at hbound
    have hfull := hl.full hbound
    refine ⟨fun q d hq => ?_, ?_⟩
    · rw [hcell] at hq
      split_ifs at hq with hqd
      rcases List.mem_cons.1 (hfull.1 q d hq) with he | hm
      · exact absurd ⟨congrArg Prod.fst he, congrArg Prod.snd he⟩ hqd
      · exact hm
    · have := hfull.2
      simp only [List.length_cons] at this
      omega

theorem placed_free {p c : Nat} {l : List (Nat × Nat)} (hi : h.Inv) (hl : h.FreeList ((p, c) :: l))
    (obj : α) : Placed h ((h.unlink p c).fillCell p c obj) p c obj := by
  have hfree : (h.cellAt p c).free = true := hl.free (p, c) (List.mem_cons_self ..)
  have hused := (hi.page p).lt_used_of_free hfree
  have hlt : p < h.pages.size := lt_size_of_used (Nat.zero_lt_of_lt hused)
  have hpage : ∀ q, ((h.unlink p c).fillCell p c obj).pageAt q =
      if q = p then (h.pageAt p).fill c (h.pageAt p).used obj else h.pageAt q :=
    fun q => pageAt_fillCell (h.unlink p c) hlt c q obj
  have hu : ∀ q, (((h.unlink p c).fillCell p c obj).pageAt q).used = (h.pageAt q).used := by
    intro q
    rw [hpage]
    split_ifs with hq
    · rw [hq]; rfl
    · rfl
  have hsize : ((h.unlink p c).fillCell p c obj).pages.size = h.pages.size := by simp [fillCell, unlink]
  refine placed_of hi (fun _ => rfl) (fun _ _ => rfl) hsize le_rfl (Nat.le_succ _) hi.size_le hlt
    (hi.page p).used_le hpage ((hi.page p).obj_of_free hfree) le_rfl hused
    (fun d h1 h2 => absurd h1 (Nat.not_le.2 h2)) rfl rfl rfl hi.nodup_freePages ?_ ?_ ?_
    ⟨l, freeList_unlink hl hpage hsize rfl rfl⟩
  · intro q; rw [hsize, hu]; exact hi.mem_freePages q
  · intro q hq; rw [hsize, hu]; exact hi.current q hq
  · intro q; rw [hu]; exact hi.filling q

/-! ## A fresh cell -/

/-- The heap with one more cell of a page handed out. -/
def advance (h : Heap α) (p : Nat) : Heap α :=
  h.modifyPage p fun page => { page with used := page.used + 1 }

theorem takeFresh_spec (hi : h.Inv) :
    (∃ p h₁, Bumped h h₁ p ∧ takeFresh h = .ok (p, (h.pageAt p).used) (h₁.advance p)) ∨
      maxPages ≤ h.pages.size ∧ takeFresh h = .error (.heapExhausted h.pages.size) h := by
  rcases bumpPage_spec hi with ⟨p, h₁, hrun, hb⟩ | ⟨hmax, hrun⟩
  · left
    refine ⟨p, h₁, hb, ?_⟩
    have hu : (h₁.pages.getD p {}).used = (h.pageAt p).used := congrArg Page.used (hb.pageAt p)
    simp only [takeFresh, bind_apply, hrun, get_apply, modify_apply, pure_apply, hu, advance]
  · right
    exact ⟨hmax, by simp only [takeFresh, bind_apply, hrun]⟩

theorem pageAt_advance {p : Nat} (hp : p < h.pages.size) (q : Nat) : (h.advance p).pageAt q =
    if q = p then { h.pageAt p with used := (h.pageAt p).used + 1 } else h.pageAt q := by
  rw [advance, pageAt_modifyPage]
  by_cases hq : q = p <;> simp [hq, hp]

/-- With no list of free cells before, there is none after. -/
theorem freeList_fresh {p c used : Nat} {obj : α} (hi : h.Inv) (hneg : h.freeHead < 0)
    (hpage : ∀ q, h'.pageAt q = if q = p then (h.pageAt p).fill c used obj else h.pageAt q)
    (hs : h.pages.size ≤ h'.pages.size) (hhead : h'.freeHead = h.freeHead)
    (hcount : h'.freeCount = h.freeCount) : h'.FreeList [] := by
  obtain ⟨l, hl⟩ := hi.freeList
  have hnil : l = [] := hl.chain.unique (.done hneg)
  subst hnil
  refine ⟨.done (hhead ▸ hneg), List.nodup_nil, by simp, Nat.zero_le _, fun hbound => ?_⟩
  have hfull := hl.full ((Nat.mul_le_mul_right _ hs).trans hbound)
  refine ⟨fun q d hq => ?_, by rw [hcount]; exact hfull.2⟩
  rw [cellAt_of_fill hpage] at hq
  split_ifs at hq
  exact hfull.1 q d hq

theorem placed_fresh {h₁ : Heap α} {p : Nat} (hi : h.Inv) (hb : Bumped h h₁ p) (hneg : h.freeHead < 0)
    (obj : α) :
    Placed h ((h₁.advance p).fillCell p (h.pageAt p).used obj) p (h.pageAt p).used obj := by
  set u := (h.pageAt p).used with hu
  set h' := (h₁.advance p).fillCell p u obj with hh'
  have hsize : h'.pages.size = h₁.pages.size := by simp [h', fillCell, advance]
  have hpage : ∀ q, h'.pageAt q = if q = p then (h.pageAt p).fill u (u + 1) obj else h.pageAt q := by
    intro q
    rw [hh', pageAt_fillCell _ (by simpa [advance] using hb.lt_size), pageAt_advance hb.lt_size,
      pageAt_advance hb.lt_size, if_pos rfl, hb.pageAt, hb.pageAt, Page.fill_with_used]
    split_ifs <;> rfl
  have hused : ∀ q, (h'.pageAt q).used = if q = p then u + 1 else (h.pageAt q).used := by
    intro q
    rw [hpage]
    split_ifs <;> rfl
  have hrest : ∀ {β : Type} (f : Heap α → β), f h₁ = f { h with
      pages := h₁.pages, current := some p, freePages := h₁.freePages } := fun f => congrArg f hb.rest
  refine placed_of hi hb.pageAt hb.total hsize hb.size hb.grows hb.size_le hb.lt_size hb.room hpage
    ((hi.page p).fresh u le_rfl).1 (Nat.le_succ u) (Nat.lt_succ_self u) (fun d h1 h2 => by omega)
    (congrArg (· + 1) (hrest Heap.live)) (congrArg (· + 1) (hrest Heap.totalAllocated))
    (hrest Heap.markCount) hb.nodup (fun q => ?_) (fun q hq => ?_) (fun q h0 hlt => ?_)
    ⟨[], freeList_fresh hi hneg hpage (hsize ▸ hb.size) (hrest Heap.freeHead) (hrest Heap.freeCount)⟩
  · rw [hused, hsize]
    refine (hb.mem q).trans ?_
    split_ifs with hq <;> simp [hq]
  · have : some p = some q := (hrest Heap.current).symm.trans hq
    rw [← Option.some.inj this, hused, hsize, if_pos rfl]
    exact ⟨hb.lt_size, Nat.succ_pos u⟩
  · rw [hused] at h0 hlt
    split_ifs at h0 hlt with hq
    · rw [hq]; exact hrest Heap.current
    · exact absurd (hb.filling q h0 hlt) hq

/-! ## Allocation -/

theorem inv_countAllocation (hi : h.Inv) : h.countAllocation.Inv := by
  unfold countAllocation
  split_ifs <;> exact hi.congr rfl rfl rfl rfl rfl rfl rfl

theorem countAllocation_pages (h : Heap α) : h.countAllocation.pages = h.pages := by
  unfold countAllocation
  split_ifs <;> rfl

/-- An object is placed in a vacant cell, unless a page would be needed and there can be no more. -/
theorem alloc_spec (hi : h.Inv) (obj : α) :
    (∃ p c h', alloc obj h =
        .ok (.ofRef (.make (UInt64.ofNat p) (UInt64.ofNat c) (h.cellAt p c).gen)) h' ∧ Placed h h' p c obj) ∨
      maxPages ≤ h.pages.size ∧ alloc obj h = .error (.heapExhausted h.pages.size) h.countAllocation := by
  have hi₀ := inv_countAllocation hi
  have hcell : ∀ p c, h.countAllocation.cellAt p c = h.cellAt p c := fun p c => by
    simp only [cellAt, countAllocation_pages]
  have back : ∀ {p c h'}, Placed h.countAllocation h' p c obj → Placed h h' p c obj := by
    intro p c h' hp
    have hl : h.countAllocation.live = h.live ∧ h.countAllocation.totalAllocated = h.totalAllocated := by
      unfold countAllocation; split_ifs <;> exact ⟨rfl, rfl⟩
    refine ⟨hp.lt_size, hp.lt_cells, countAllocation_pages h ▸ hp.size, countAllocation_pages h ▸ hp.grows, hcell p c ▸ hp.vacant, fun q d => ?_,
      hl.1 ▸ hp.live, hl.2 ▸ hp.allocated, hp.inv⟩
    rw [hp.cell, hcell, hcell]
  by_cases h0 : 0 ≤ h.countAllocation.freeHead
  · left
    obtain ⟨p, c, l, hl, hrun⟩ := takeFree_spec hi₀ h0
    refine ⟨p, c, _, ?_, back (placed_free hi₀ hl obj)⟩
    simp only [alloc, bind_apply, modify_apply, get_apply, if_pos h0, hrun, pure_apply]
    rw [← hcell]
    rfl
  · rcases takeFresh_spec hi₀ with ⟨p, h₁, hb, hrun⟩ | ⟨hmax, hrun⟩
    · left
      refine ⟨p, _, _, ?_, back (placed_fresh hi₀ hb (Int32.not_le.1 h0) obj)⟩
      simp only [alloc, bind_apply, modify_apply, get_apply, if_neg h0, hrun, pure_apply]
      have hg : (h₁.advance p).cellAt p (h.countAllocation.pageAt p).used =
          h.countAllocation.cellAt p (h.countAllocation.pageAt p).used := by
        rw [cellAt_eq, pageAt_advance hb.lt_size, if_pos rfl, cellAt_eq, hb.pageAt]
        rfl
      rw [hg, hcell]
    · right
      rw [countAllocation_pages] at hmax
      exact ⟨hmax, by
        simp only [alloc, bind_apply, modify_apply, get_apply, if_neg h0, hrun, countAllocation_pages]⟩

end RubyMachine.Heap
