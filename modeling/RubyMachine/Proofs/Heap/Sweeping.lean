import RubyMachine.Proofs.Heap.Marking

/-! Sweeping: every unmarked object goes, nothing else changes in the cells, and the free list is built
anew. Each part of a sweep keeps what does not depend on the links, page by page. -/

namespace RubyMachine

variable {α : Type}

/-- A cell that holds an object which is not marked. -/
def Cell.isDoomed (c : Cell α) : Bool := c.obj.isSome && !c.marked

/-- A cell whose object was taken away. -/
def Cell.freed (c : Cell α) : Cell α := { c with obj := none, free := true, gen := c.gen + 1 }

def Cell.swept (c : Cell α) : Cell α := if c.isDoomed then c.freed else c

/-! ## The cells of a page -/

theorem Page.Ok.freeCell {p : Page α} (hp : p.Ok) {c : Nat} (hobj : (p.cellAt c).obj.isSome = true)
    (hm : (p.cellAt c).marked = false) :
    Page.Ok { p.modifyCell c Cell.freed with live := p.live - 1 } := by
  have hc := hp.lt_used_of_obj hobj
  have hcell : ∀ d, Page.cellAt { p.modifyCell c Cell.freed with live := p.live - 1 } d =
      if d = c then (p.cellAt c).freed else p.cellAt d := fun d => Page.cellAt_modifyCell p c d _
  refine ⟨?_, fun d hd => ?_, fun d hd => ?_, fun d hd => ?_, ?_⟩
  · show (p.modifyCell c Cell.freed).used ≤ _
    rw [Page.used_modifyCell]
    exact hp.used_le
  · change (p.modifyCell c Cell.freed).used ≤ d at hd
    rw [Page.used_modifyCell] at hd
    rw [hcell, if_neg (by omega)]
    exact hp.fresh d hd
  · change d < (p.modifyCell c Cell.freed).used at hd
    rw [Page.used_modifyCell] at hd
    rw [hcell]
    split_ifs
    · rfl
    · exact hp.taken d hd
  · rw [hcell] at hd ⊢
    split_ifs at hd ⊢
    · exact absurd hd (by simp [Cell.freed, hm])
    · exact hp.marked d hd
  · have := Page.count_modifyCell (·.obj.isSome) p Cell.freed (hc.trans_le hp.used_le)
    rw [hobj] at this
    have he : Page.count (·.obj.isSome) { p.modifyCell c Cell.freed with live := p.live - 1 } =
      (p.modifyCell c Cell.freed).count (·.obj.isSome) := Page.count_congr fun _ _ => rfl
    rw [he]
    simp only [Cell.freed, Option.isSome_none, Bool.toNat_false, Bool.toNat_true] at this
    show p.live - 1 = _
    rw [hp.live]
    omega

namespace Heap

variable {h h' : Heap α}

theorem pageAt_freeCell {p : Nat} (hp : p < h.pages.size) (c q : Nat) : (h.freeCell p c).pageAt q =
    if q = p then { (h.pageAt p).modifyCell c Cell.freed with live := (h.pageAt p).live - 1 }
    else h.pageAt q := by
  have he : (h.freeCell p c).pageAt q = (h.modifyPage p fun pg =>
      { pg.modifyCell c Cell.freed with live := (pg.modifyCell c Cell.freed).live - 1 }).pageAt q := rfl
  rw [he, pageAt_modifyPage]
  by_cases hq : q = p <;> simp [hq, hp]

theorem cellAt_freeCell {p : Nat} (hp : p < h.pages.size) (c q d : Nat) : (h.freeCell p c).cellAt q d =
    if q = p ∧ d = c then (h.cellAt p c).freed else h.cellAt q d := by
  rw [cellAt_eq, pageAt_freeCell hp]
  by_cases hq : q = p
  · subst hq
    have := Page.cellAt_modifyCell (h.pageAt q) c d Cell.freed
    simpa [Page.cellAt, cellAt_eq] using this
  · simp [hq, cellAt_eq]

theorem used_freeCell {p : Nat} (hp : p < h.pages.size) (c q : Nat) :
    ((h.freeCell p c).pageAt q).used = (h.pageAt q).used := by
  rw [pageAt_freeCell hp]
  split_ifs with hq
  · rw [hq]; exact Page.used_modifyCell ..
  · rfl

theorem Core.freeCell (hi : h.Core) {p c : Nat} (hobj : (h.cellAt p c).obj.isSome = true)
    (hm : (h.cellAt p c).marked = false) : (h.freeCell p c).Core := by
  have hp : p < h.pages.size := lt_size_of_used (Nat.zero_lt_of_lt ((hi.page p).lt_used_of_obj hobj))
  have hc : c < pageCells := ((hi.page p).lt_used_of_obj hobj).trans_le (hi.page p).used_le
  have hpage := pageAt_freeCell hp c
  have hused := used_freeCell hp c
  have hsize : (h.freeCell p c).pages.size = h.pages.size := size_modifyPage ..
  refine ⟨hsize ▸ hi.size_le, fun q => ?_, ?_, ?_, hi.nodup_freePages, fun q => ?_, fun q hq => ?_, fun q => ?_⟩
  · rw [hpage]
    split_ifs
    · exact (hi.page p).freeCell hobj hm
    · exact hi.page q
  · have htot := total_of_agree (f := Page.live) (g := Page.live) hp hsize
      fun q hq => by rw [hpage, if_neg hq]
    rw [hpage, if_pos rfl, ← hi.live] at htot
    have hpos : 0 < (h.pageAt p).live := by
      rw [(hi.page p).live]
      exact List.countP_pos_iff.2 ⟨c, List.mem_range.2 hc, hobj⟩
    show h.live - 1 = _
    simp only at htot
    omega
  · have htot := total_of_agree (f := Page.count (·.marked)) (g := Page.count (·.marked)) hp hsize
      fun q hq => by rw [hpage, if_neg hq]
    have hcount : ((h.freeCell p c).pageAt p).count (·.marked) = (h.pageAt p).count (·.marked) := by
      refine Page.count_congr fun d _ => ?_
      rw [← cellAt_eq, cellAt_freeCell hp]
      split_ifs with hd
      · rw [hd.2]; rfl
      · rfl
    rw [← hi.marks, hcount] at htot
    exact (Nat.add_right_cancel htot).symm
  · rw [hused, hsize]; exact hi.mem_freePages q
  · rw [hused, hsize]; exact hi.current q hq
  · rw [hused]; exact hi.filling q

/-- What sweeping the cells `l` of page `p` changes. -/
structure SweptCells (p : Nat) (l : List Nat) (h h' : Heap α) : Prop where
  rest : h' = { h with pages := h'.pages, live := h'.live }
  size : h'.pages.size = h.pages.size
  used : ∀ q, (h'.pageAt q).used = (h.pageAt q).used
  cell : ∀ q d, h'.cellAt q d = if q = p ∧ d ∈ l then (h.cellAt q d).swept else h.cellAt q d
  core : h'.Core

theorem sweepCells_cons (hi : h.Core) {p c : Nat} {rest : List Nat} (hc : c < (h.pageAt p).used) :
    sweepCells p (c :: rest) h =
      if (h.cellAt p c).isDoomed = true then
        (do return (h.cellAt p c).obj.toList ++ (← sweepCells p rest) : HeapM α (List α)) (h.freeCell p c)
      else sweepCells p rest h := by
  have htaken : (h.cellAt p c).free = (h.cellAt p c).obj.isNone := (hi.page p).taken c hc
  have hmark : (h.cellAt p c).obj = none → (h.cellAt p c).marked = false := (hi.page p).not_marked
  rw [sweepCells, bind_apply, get_apply, Cell.isDoomed]
  cases ho : (h.cellAt p c).obj with
  | none => simp [htaken, ho, hmark ho]
  | some obj => cases hk : (h.cellAt p c).marked <;> simp [htaken, ho, hk]

/-- A cell is freed before the others are swept. -/
theorem SweptCells.freed {p c : Nat} {rest : List Nat} (hs : SweptCells p rest (h.freeCell p c) h')
    (hp : p < h.pages.size) (hd : (h.cellAt p c).isDoomed = true) (hc : c ∉ rest) : SweptCells p (c :: rest) h h' := by
  refine ⟨?_, ?_, fun q => ?_, fun q d => ?_, hs.core⟩
  · rw [hs.rest]
    rfl
  · rw [hs.size]
    exact size_modifyPage ..
  · rw [hs.used, used_freeCell hp c]
  · rw [hs.cell, cellAt_freeCell hp c]
    by_cases hq : q = p
    · subst hq
      by_cases hdc : d = c
      · subst hdc
        simp [hc, Cell.swept, hd]
      · simp [hdc]
    · simp [hq]

/-- A cell that is in use or was free is left. -/
theorem SweptCells.kept {p c : Nat} {rest : List Nat} (hs : SweptCells p rest h h')
    (hd : ¬ (h.cellAt p c).isDoomed = true) (hc : c ∉ rest) : SweptCells p (c :: rest) h h' := by
  refine ⟨hs.rest, hs.size, hs.used, fun q d => ?_, hs.core⟩
  rw [hs.cell]
  by_cases hdc : q = p ∧ d = c
  · obtain ⟨rfl, rfl⟩ := hdc
    simp [hc, Cell.swept, hd]
  · have : (q = p ∧ d ∈ c :: rest) ↔ (q = p ∧ d ∈ rest) := by
      rw [List.mem_cons]
      tauto
    simp only [this]

theorem sweepCells_spec {p : Nat} : ∀ l : List Nat, ∀ h : Heap α, h.Core → l.Nodup →
    (∀ c ∈ l, c < (h.pageAt p).used) → ∃ freed h', sweepCells p l h = .ok freed h' ∧ SweptCells p l h h' ∧
      freed.map some = (l.filter fun c => (h.cellAt p c).isDoomed).map fun c => (h.cellAt p c).obj := by
  intro l
  induction l with
  | nil =>
    intro h hi _ _
    exact ⟨[], h, rfl, ⟨rfl, rfl, fun _ => rfl, by simp, hi⟩, rfl⟩
  | cons c rest ih =>
    intro h hi hnd hl
    rw [List.nodup_cons] at hnd
    have hrest : ∀ d ∈ rest, d < (h.pageAt p).used := fun d hd => hl d (List.mem_cons_of_mem _ hd)
    have hc := hl c (List.mem_cons_self ..)
    by_cases hd : (h.cellAt p c).isDoomed = true
    · obtain ⟨hobj, hmark⟩ : (h.cellAt p c).obj.isSome = true ∧ (h.cellAt p c).marked = false := by
        simpa [Cell.isDoomed] using hd
      obtain ⟨obj, ho⟩ := Option.isSome_iff_exists.1 hobj
      have hp : p < h.pages.size := lt_size_of_used (Nat.zero_lt_of_lt hc)
      obtain ⟨freed, h', hrun, hs, hlist⟩ := ih (h.freeCell p c) (hi.freeCell hobj hmark) hnd.2
        (fun d hd => by rw [used_freeCell hp c]; exact hrest d hd)
      refine ⟨obj :: freed, h', ?_, hs.freed hp hd hnd.1, ?_⟩
      · rw [sweepCells_cons hi hc, if_pos hd, bind_apply, hrun, ho]
        rfl
      · have hsame : ∀ d ∈ rest, (h.freeCell p c).cellAt p d = h.cellAt p d := fun d hdr => by
          rw [cellAt_freeCell hp c, if_neg (by rintro ⟨-, rfl⟩; exact hnd.1 hdr)]
        rw [List.map_cons, hlist, List.filter_cons_of_pos (by simpa using hd), List.map_cons, ho]
        congr 1
        rw [List.filter_congr fun d hd => by rw [hsame d hd]]
        exact List.map_congr_left fun d hd => by rw [hsame d (List.mem_of_mem_filter hd)]
    · obtain ⟨freed, h', hrun, hs, hlist⟩ := ih h hi hnd.2 hrest
      refine ⟨freed, h', ?_, hs.kept hd hnd.1, ?_⟩
      · rw [sweepCells_cons hi hc, if_neg hd]
        exact hrun
      · rw [List.filter_cons_of_neg (by simpa using hd)]
        exact hlist

/-! ## Pages without objects -/

theorem cellAt_resetPage (p : Page α) (c : Nat) : (resetPage p).cellAt c =
    if c < p.used then { gen := (p.cellAt c).gen } else { p.cellAt c with marked := false } := by
  simp only [resetPage, Page.cellAt, Array.getD_eq_getD_getElem?, Array.getElem?_mapIdx]
  cases p.cells[c]? with
  | none => split_ifs <;> rfl
  | some x => rfl

/-- Nothing but what is free is lost with a page that holds no object. -/
theorem cellAt_resetPage_of_live {p : Page α} (hp : p.Ok) (hl : p.live = 0) (c : Nat) :
    (p.cellAt c).obj = none ∧ (p.cellAt c).marked = false ∧ ((resetPage p).cellAt c).obj = none ∧
      ((resetPage p).cellAt c).free = false ∧ ((resetPage p).cellAt c).marked = false ∧
      ((resetPage p).cellAt c).gen = (p.cellAt c).gen := by
  have hobj : (p.cellAt c).obj = none := by
    rw [hp.live, Page.count_eq_zero] at hl
    by_cases hc : c < Heap.pageCells
    · simpa using hl c hc
    · exact (hp.fresh c (hp.used_le.trans (Nat.not_lt.1 hc))).1
  refine ⟨hobj, hp.not_marked hobj, ?_⟩
  rw [cellAt_resetPage]
  split_ifs with hc
  · exact ⟨rfl, rfl, rfl, rfl⟩
  · exact ⟨hobj, (hp.fresh c (Nat.not_lt.1 hc)).2, rfl, rfl⟩

theorem ok_resetPage {p : Page α} (hp : p.Ok) (hl : p.live = 0) : (resetPage p).Ok := by
  have hcell := cellAt_resetPage_of_live hp hl
  refine ⟨Nat.zero_le _, fun c _ => ?_, fun c hc => absurd hc (Nat.not_lt_zero c), fun c hc => ?_, ?_⟩
  · obtain ⟨-, -, ho, hf, -⟩ := hcell c
    exact ⟨ho, hf⟩
  · obtain ⟨-, -, -, -, hm, -⟩ := hcell c
    rw [hm] at hc
    cases hc
  · refine (Page.count_eq_zero.2 fun c _ => ?_).symm
    obtain ⟨-, -, ho, -⟩ := hcell c
    rw [ho]
    rfl

theorem pageAt_releasePage {p : Nat} (hp : p < h.pages.size) (q : Nat) : (h.releasePage p).pageAt q =
    if q = p then resetPage (h.pageAt p) else h.pageAt q := by
  have he : (h.releasePage p).pageAt q = (h.modifyPage p resetPage).pageAt q := rfl
  rw [he, pageAt_modifyPage]
  by_cases hq : q = p <;> simp [hq, hp]

theorem Core.releasePage (hi : h.Core) {p : Nat} (hu : 0 < (h.pageAt p).used) (hl : (h.pageAt p).live = 0) :
    (h.releasePage p).Core := by
  have hp := lt_size_of_used hu
  have hpage := pageAt_releasePage hp
  have hsize : (h.releasePage p).pages.size = h.pages.size := size_modifyPage ..
  have hcur : (h.releasePage p).current = if h.current = some p then none else h.current := rfl
  have hcell := cellAt_resetPage_of_live (hi.page p) hl
  refine ⟨hsize ▸ hi.size_le, fun q => ?_, ?_, ?_, ?_, fun q => ?_, fun q hq => ?_, fun q h0 hlt => ?_⟩
  · rw [hpage]
    split_ifs
    · exact ok_resetPage (hi.page p) hl
    · exact hi.page q
  · have htot := total_of_agree (f := Page.live) (g := Page.live) hp hsize fun q hq => by rw [hpage, if_neg hq]
    rw [hpage, if_pos rfl, hl, ← hi.live] at htot
    exact htot.symm
  · have htot := total_of_agree (f := Page.count (·.marked)) (g := Page.count (·.marked)) hp hsize
      fun q hq => by rw [hpage, if_neg hq]
    have hcount : (resetPage (h.pageAt p)).count (·.marked) = (h.pageAt p).count (·.marked) := by
      refine Page.count_congr fun c _ => ?_
      obtain ⟨-, hm, -, -, hm', -⟩ := hcell c
      rw [hm, hm']
    rw [hpage, if_pos rfl, hcount, ← hi.marks] at htot
    exact (Nat.add_right_cancel htot).symm
  · refine List.nodup_cons.2 ⟨fun hm => ?_, hi.nodup_freePages⟩
    have := ((hi.mem_freePages p).1 hm).2
    omega
  · rw [hpage, hsize]
    show q ∈ p :: h.freePages ↔ _
    rw [List.mem_cons, hi.mem_freePages]
    split_ifs with hq
    · subst hq
      exact ⟨fun _ => ⟨hp, rfl⟩, fun _ => Or.inl rfl⟩
    · exact ⟨fun h => h.resolve_left hq, Or.inr⟩
  · rw [hcur] at hq
    split_ifs at hq with hqp
    rw [hpage, hsize, if_neg (by rintro rfl; exact hqp hq)]
    exact hi.current q hq
  · rw [hpage] at h0 hlt
    split_ifs at h0 hlt with hq
    · exact absurd h0 (Nat.lt_irrefl 0)
    · have := hi.filling q h0 hlt
      rw [hcur, this, if_neg (by rintro he; exact hq (Option.some.inj he))]

/-! ## The free list -/

/-- A free list of the cells in a region. -/
structure FreeListOn (h : Heap α) (P : Nat → Nat → Prop) (l : List (Nat × Nat)) : Prop where
  chain : Chain h.next h.freeHead l
  nodup : l.Nodup
  free : ∀ x ∈ l, (h.cellAt x.1 x.2).free = true ∧ P x.1 x.2
  length_le : l.length ≤ h.freeCount
  full : h.pages.size * pageCells ≤ 2 ^ 31 →
    (∀ p c, P p c → (h.cellAt p c).free = true → (p, c) ∈ l) ∧ l.length = h.freeCount

/-- One free cell put in front of the list. -/
def pushFree (h : Heap α) (p c : Nat) : Heap α :=
  { h.modifyCell p c fun x => { x with next := h.freeHead } with
    freeHead := linkTo p c, freeCount := h.freeCount + 1 }

theorem cellAt_pushFree {p : Nat} (hp : p < h.pages.size) (c q d : Nat) : (h.pushFree p c).cellAt q d =
    if q = p ∧ d = c then { h.cellAt p c with next := h.freeHead } else h.cellAt q d :=
  cellAt_modifyCell h hp c q d _

theorem FreeListOn.pushFree {P : Nat → Nat → Prop} {l : List (Nat × Nat)} (hi : h.Core) (hl : FreeListOn h P l)
    {p c : Nat} (hfree : (h.cellAt p c).free = true) (hP : ¬ P p c) :
    ∃ l', FreeListOn (h.pushFree p c) (fun q d => P q d ∨ (q = p ∧ d = c)) l' := by
  have hu := (hi.page p).lt_used_of_free hfree
  have hp : p < h.pages.size := lt_size_of_used (Nat.zero_lt_of_lt hu)
  have hc : c < pageCells := hu.trans_le (hi.page p).used_le
  have hcell := cellAt_pushFree hp c
  have hsize : (h.pushFree p c).pages.size = h.pages.size := size_modifyPage ..
  have hne : ∀ x ∈ l, ¬ (x.1 = p ∧ x.2 = c) := by
    rintro ⟨q, d⟩ hx ⟨rfl, rfl⟩
    exact hP (hl.free _ hx).2
  have hfree' : ∀ q d, ((h.pushFree p c).cellAt q d).free = (h.cellAt q d).free := by
    intro q d
    rw [hcell]
    split_ifs with hq
    · rw [hq.1, hq.2]
    · rfl
  rcases linkTo_cases (hp.trans_le hi.size_le) hc with ⟨-, hpos, hsplit⟩ | ⟨hbig, hneg⟩
  · refine ⟨(p, c) :: l, ?_, List.nodup_cons.2 ⟨fun hm => hne _ hm ⟨rfl, rfl⟩, hl.nodup⟩, fun x hx => ?_,
      Nat.succ_le_succ hl.length_le, fun hbound => ⟨fun q d hq hf => ?_, ?_⟩⟩
    · show Chain _ (linkTo p c) _
      rw [← hsplit]
      refine .cell hpos ?_
      rw [hsplit, Heap.next, hcell, if_pos ⟨rfl, rfl⟩]
      exact hl.chain.congr fun x hx => by rw [Heap.next, hcell, if_neg (hne x hx), Heap.next]
    · rw [hfree']
      rcases List.mem_cons.1 hx with rfl | hx
      · exact ⟨hfree, Or.inr ⟨rfl, rfl⟩⟩
      · exact ⟨(hl.free x hx).1, Or.inl (hl.free x hx).2⟩
    · rw [hfree'] at hf
      rcases hq with hq | ⟨rfl, rfl⟩
      · exact List.mem_cons_of_mem _ ((hl.full (hsize ▸ hbound)).1 q d hq hf)
      · exact List.mem_cons_self ..
    · exact congrArg (· + 1) (hl.full (hsize ▸ hbound)).2
  · -- a link that overflows ends the list, which is then not complete
    refine ⟨[], .done hneg, List.nodup_nil, by simp, Nat.zero_le _, fun hbound => ?_⟩
    rw [hsize] at hbound
    have : (p + 1) * pageCells ≤ h.pages.size * pageCells := Nat.mul_le_mul_right _ hp
    rw [Nat.succ_mul] at this
    omega

/-- What building links changes. -/
structure Relinked (h h' : Heap α) : Prop where
  rest : h' = { h with pages := h'.pages, freeHead := h'.freeHead, freeCount := h'.freeCount }
  size : h'.pages.size = h.pages.size
  used : ∀ q, (h'.pageAt q).used = (h.pageAt q).used
  cell : ∀ q d, h'.cellAt q d = { h.cellAt q d with next := (h'.cellAt q d).next }
  core : h'.Core

theorem Relinked.trans {h'' : Heap α} (h1 : Relinked h h') (h2 : Relinked h' h'') : Relinked h h'' where
  rest := by rw [h2.rest, h1.rest]
  size := h2.size.trans h1.size
  used q := (h2.used q).trans (h1.used q)
  cell q d := by rw [h2.cell, h1.cell]
  core := h2.core

theorem relinked_pushFree (hi : h.Core) {p c : Nat} (hfree : (h.cellAt p c).free = true) :
    Relinked h (h.pushFree p c) := by
  have hp : p < h.pages.size := lt_size_of_used (Nat.zero_lt_of_lt ((hi.page p).lt_used_of_free hfree))
  have hcell := cellAt_pushFree hp c
  have hshape : SameShape h { h.modifyCell p c fun x => { x with next := h.freeHead } with
      markCount := h.markCount } := sameShape_modifyCell hp h.markCount rfl rfl
  have hs : SameShape h (h.pushFree p c) := ⟨hshape.size, hshape.freePages, hshape.current, hshape.live,
    hshape.used, hshape.pageLive, hshape.obj, hshape.free⟩
  have hsame : ∀ q d, (h.pushFree p c).cellAt q d =
      { h.cellAt q d with next := ((h.pushFree p c).cellAt q d).next } := by
    intro q d
    rw [hcell]
    split_ifs with hq
    · rw [hq.1, hq.2]
    · rfl
  have hmark : ∀ q d, ((h.pushFree p c).cellAt q d).marked = (h.cellAt q d).marked := fun q d => by rw [hsame]
  refine ⟨rfl, hs.size, hs.used, hsame, hi.of_sameShape hs (fun q d hd => ?_) ?_⟩
  · exact (hi.page q).marked d ((hmark q d).symm.trans hd)
  · exact hi.marks.trans (total_congr hs.size fun q _ => Page.count_congr fun d _ => hmark q d).symm

theorem linkFree_free {p c : Nat} (hfree : (h.cellAt p c).free = true) (cs : List Nat) :
    linkFree p (c :: cs) h = linkFree p cs (h.pushFree p c) := by
  simp only [linkFree, if_pos hfree]
  rfl

theorem linkFree_taken {p c : Nat} (hfree : ¬ (h.cellAt p c).free = true) (cs : List Nat) :
    linkFree p (c :: cs) h = linkFree p cs h := by
  simp only [linkFree, if_neg hfree]

theorem linkFree_relinked (hi : h.Core) (p : Nat) (cs : List Nat) : Relinked h (linkFree p cs h) := by
  induction cs generalizing h with
  | nil => exact ⟨rfl, rfl, fun _ => rfl, fun _ _ => rfl, hi⟩
  | cons c cs ih =>
    by_cases hfree : (h.cellAt p c).free = true
    · have hr := relinked_pushFree hi hfree
      rw [linkFree_free hfree]
      exact hr.trans (ih hr.core)
    · rw [linkFree_taken hfree]
      exact ih hi

theorem linkFree_spec {p : Nat} : ∀ (cs : List Nat) (h : Heap α) (P : Nat → Nat → Prop), h.Core → cs.Nodup →
    (∃ l, FreeListOn h P l) → (∀ c ∈ cs, ¬ P p c) →
      ∃ l, FreeListOn (linkFree p cs h) (fun q d => P q d ∨ (q = p ∧ d ∈ cs)) l := by
  intro cs
  induction cs with
  | nil =>
    rintro h P hi - ⟨l, hl⟩ -
    refine ⟨l, ?_⟩
    simpa [linkFree] using hl
  | cons c rest ih =>
    rintro h P hi hnd ⟨l, hl⟩ hP
    rw [List.nodup_cons] at hnd
    have hPc := hP c (List.mem_cons_self ..)
    have hPr : ∀ d ∈ rest, ¬ (P p d ∨ (p = p ∧ d = c)) := by
      rintro d hd (hPd | ⟨-, rfl⟩)
      · exact hP d (List.mem_cons_of_mem _ hd) hPd
      · exact hnd.1 hd
    have hregion : (fun q d => P q d ∨ (q = p ∧ d ∈ c :: rest)) =
        fun q d => (P q d ∨ (q = p ∧ d = c)) ∨ (q = p ∧ d ∈ rest) := by
      funext q d
      rw [List.mem_cons]
      exact propext (by tauto)
    rw [hregion]
    by_cases hfree : (h.cellAt p c).free = true
    · rw [linkFree_free hfree]
      exact ih (h.pushFree p c) _ (relinked_pushFree hi hfree).core hnd.2 (hl.pushFree hi hfree hPc) hPr
    · rw [linkFree_taken hfree]
      refine ih h _ hi hnd.2 ⟨l, hl.chain, hl.nodup, fun x hx => ⟨(hl.free x hx).1, Or.inl (hl.free x hx).2⟩,
        hl.length_le, fun hbound => ⟨fun q d hq hf => ?_, (hl.full hbound).2⟩⟩ hPr
      rcases hq with hq | ⟨rfl, rfl⟩
      · exact (hl.full hbound).1 q d hq hf
      · exact absurd hf hfree

/-! ## Pages, one after the other -/

/-- What sweeping the pages in `P` changes, links apart. -/
structure SweptPages (P : Nat → Prop) (h h' : Heap α) : Prop where
  rest : h' = { h with pages := h'.pages, freePages := h'.freePages, current := h'.current,
                       freeHead := h'.freeHead, freeCount := h'.freeCount, live := h'.live }
  size : h'.pages.size = h.pages.size
  core : h'.Core
  marked : ∀ p c, (h'.cellAt p c).marked = (h.cellAt p c).marked
  swept : ∀ p c, P p → (h'.cellAt p c).obj = (h.cellAt p c).swept.obj ∧
    (h'.cellAt p c).gen = (h.cellAt p c).swept.gen
  other : ∀ p c, ¬ P p → h'.cellAt p c = { h.cellAt p c with next := (h'.cellAt p c).next }

@[simp] theorem marked_swept (c : Cell α) : c.swept.marked = c.marked := by
  unfold Cell.swept; split_ifs <;> rfl

theorem swept_next (c : Cell α) (link : Int32) :
    ({ c with next := link } : Cell α).swept = { c.swept with next := link } := by
  have he : ({ c with next := link } : Cell α).isDoomed = c.isDoomed := rfl
  unfold Cell.swept
  rw [he]
  cases c.isDoomed <;> rfl

theorem swept_of_le (hi : h.Core) {p c : Nat} (hc : (h.pageAt p).used ≤ c) :
    (h.cellAt p c).swept = h.cellAt p c := by
  have ho : (h.cellAt p c).obj = none := ((hi.page p).fresh c hc).1
  simp [Cell.swept, Cell.isDoomed, ho]

namespace SweptPages

variable {h₁ h₂ : Heap α} {n : Nat}

theorem of_unused (hi : h.Core) (hu : (h.pageAt n).used = 0) : SweptPages (· = n) h h := by
  refine ⟨rfl, rfl, hi, fun _ _ => rfl, fun p c hp => ?_, fun _ _ _ => rfl⟩
  subst hp
  rw [swept_of_le hi (by rw [hu]; exact Nat.zero_le c)]
  exact ⟨rfl, rfl⟩

theorem of_cells (hi : h.Core) (hs : SweptCells n (List.range (h.pageAt n).used) h h₁) :
    SweptPages (· = n) h h₁ := by
  refine ⟨?_, hs.size, hs.core, fun p c => ?_, fun p c hp => ?_, fun p c hp => ?_⟩
  · rw [hs.rest]
  · rw [hs.cell]
    split_ifs
    · exact marked_swept _
    · rfl
  · subst hp
    rw [hs.cell]
    split_ifs with hc
    · exact ⟨rfl, rfl⟩
    · rw [swept_of_le hi (by simpa using hc)]
      exact ⟨rfl, rfl⟩
  · rw [hs.cell, if_neg fun hn => hp hn.1]

theorem relink {P : Nat → Prop} (hs : SweptPages P h h₁) (hr : Relinked h₁ h₂) : SweptPages P h h₂ := by
  refine ⟨?_, hr.size.trans hs.size, hr.core, fun p c => ?_, fun p c hp => ?_, fun p c hp => ?_⟩
  · rw [hr.rest, hs.rest]
  · rw [hr.cell]; exact hs.marked p c
  · rw [hr.cell]; exact hs.swept p c hp
  · rw [hr.cell, hs.other p c hp]

theorem release (hs : SweptPages (· = n) h h₁) (hu : 0 < (h₁.pageAt n).used) (hl : (h₁.pageAt n).live = 0) :
    SweptPages (· = n) h (h₁.releasePage n) := by
  have hcell := cellAt_resetPage_of_live (hs.core.page n) hl
  have hpage := pageAt_releasePage (lt_size_of_used hu)
  refine ⟨?_, (size_modifyPage ..).trans hs.size, hs.core.releasePage hu hl, fun p c => ?_, fun p c hp => ?_,
    fun p c hp => ?_⟩
  · rw [Heap.releasePage, hs.rest]; rfl
  · rw [cellAt_eq, hpage]
    split_ifs with hp
    · subst hp
      rw [(hcell c).2.2.2.2.1, ← hs.marked, cellAt_eq, (hcell c).2.1]
    · exact hs.marked p c
  · subst hp
    rw [cellAt_eq, hpage, if_pos rfl, (hcell c).2.2.1, (hcell c).2.2.2.2.2, ← (hcell c).1]
    exact hs.swept p c rfl
  · rw [cellAt_eq, hpage, if_neg hp]
    exact hs.other p c hp

theorem succ (h1 : SweptPages (· = n) h h₁) (h2 : SweptPages (· < n) h₁ h') : SweptPages (· < n + 1) h h' := by
  refine ⟨?_, h2.size.trans h1.size, h2.core, fun p c => (h2.marked p c).trans (h1.marked p c),
    fun p c hp => ?_, fun p c hp => ?_⟩
  · rw [h2.rest, h1.rest]
  · rcases Nat.lt_succ_iff_lt_or_eq.1 hp with hp | rfl
    · rw [(h2.swept p c hp).1, (h2.swept p c hp).2, h1.other p c hp.ne, swept_next]
      exact ⟨rfl, rfl⟩
    · rw [h2.other p c (Nat.lt_irrefl p)]
      exact h1.swept p c rfl
  · rw [h2.other p c (by omega), h1.other p c (by omega)]

end SweptPages

theorem FreeListOn.congr {P Q : Nat → Nat → Prop} {l : List (Nat × Nat)} (hl : FreeListOn h P l)
    (hhead : h'.freeHead = h.freeHead) (hcount : h'.freeCount = h.freeCount)
    (hsize : h'.pages.size = h.pages.size) (hcell : ∀ p c, P p c → h'.cellAt p c = h.cellAt p c)
    (hPQ : ∀ p c, P p c → Q p c) (hQP : ∀ p c, Q p c → (h'.cellAt p c).free = true → P p c) :
    FreeListOn h' Q l := by
  refine ⟨?_, hl.nodup, fun x hx => ?_, hcount ▸ hl.length_le, fun hb => ⟨fun p c hq hf => ?_, ?_⟩⟩
  · rw [hhead]
    exact hl.chain.congr fun x hx => congrArg Cell.next (hcell _ _ (hl.free x hx).2)
  · obtain ⟨hf, hP⟩ := hl.free x hx
    rw [hcell _ _ hP]
    exact ⟨hf, hPQ _ _ hP⟩
  · have hP := hQP p c hq hf
    rw [hcell p c hP] at hf
    exact (hl.full (hsize ▸ hb)).1 p c hP hf
  · rw [hcount]
    exact (hl.full (hsize ▸ hb)).2

/-- Cells not handed out are not freed. -/
theorem filter_doomed (hi : h.Core) (p : Nat) :
    ((List.range (h.pageAt p).used).filter fun c => (h.cellAt p c).isDoomed) =
      (List.range pageCells).filter fun c => (h.cellAt p c).isDoomed := by
  obtain ⟨k, hk⟩ := Nat.exists_eq_add_of_le (hi.page p).used_le
  have hnone : (((List.range k).map ((h.pageAt p).used + ·)).filter fun c => (h.cellAt p c).isDoomed) = [] := by
    refine List.filter_eq_nil_iff.2 fun c hc => ?_
    obtain ⟨j, -, rfl⟩ := List.mem_map.1 hc
    have ho : (h.cellAt p ((h.pageAt p).used + j)).obj = none := ((hi.page p).fresh _ (Nat.le_add_right ..)).1
    simp [Cell.isDoomed, ho]
  rw [hk, List.range_add, List.filter_append, hnone, List.append_nil]

/-- One page is swept, and its free cells are on the list then. -/
theorem sweepPage_spec (hi : h.Core) {n : Nat} (hu : (h.pageAt n).used ≠ 0)
    (hl : ∃ l, FreeListOn h (fun q _ => n + 1 ≤ q) l) : ∃ freed h₁,
      sweepCells n (List.range (h.pageAt n).used) h = .ok freed h₁ ∧
      freed.map some = (((List.range pageCells).filter fun c => (h.cellAt n c).isDoomed).map (Prod.mk n)).map
        (fun x => (h.cellAt x.1 x.2).obj) ∧
      ((h₁.pageAt n).live = 0 → SweptPages (· = n) h (h₁.releasePage n) ∧
        ∃ l, FreeListOn (h₁.releasePage n) (fun q _ => n ≤ q) l) ∧
      SweptPages (· = n) h (linkFree n (List.range (h.pageAt n).used).reverse h₁) ∧
        ∃ l, FreeListOn (linkFree n (List.range (h.pageAt n).used).reverse h₁) (fun q _ => n ≤ q) l := by
  obtain ⟨freed, h₁, hrun, hs, hfreed⟩ := sweepCells_spec (List.range (h.pageAt n).used) h hi List.nodup_range
    fun c hc => List.mem_range.1 hc
  obtain ⟨l, hl⟩ := hl
  have hsp := SweptPages.of_cells hi hs
  have hl₁ : FreeListOn h₁ (fun q _ => n + 1 ≤ q) l := by
    refine hl.congr ?_ ?_ hs.size (fun p c hp => ?_) (fun _ _ => id) fun _ _ hp _ => hp
    · rw [hs.rest]
    · rw [hs.rest]
    · rw [hs.cell, if_neg (by omega)]
  refine ⟨freed, h₁, hrun, ?_, fun hlive => ?_, ?_⟩
  · rw [hfreed, filter_doomed hi, List.map_map]
    rfl
  · have hu₁ : 0 < (h₁.pageAt n).used := by rw [hs.used]; omega
    have hpage := pageAt_releasePage (lt_size_of_used hu₁)
    refine ⟨hsp.release hu₁ hlive, l, hl₁.congr rfl rfl (size_modifyPage ..) (fun p c hp => ?_)
      (fun p c hp => by omega) fun p c hp hf => ?_⟩
    · rw [cellAt_eq, hpage, if_neg (by omega)]
      rfl
    · -- no cell of a released page is free
      rw [cellAt_eq, hpage] at hf
      split_ifs at hf with hpn
      · rw [(cellAt_resetPage_of_live (hs.core.page n) hlive c).2.2.2.1] at hf
        cases hf
      · omega
  · have hr := linkFree_relinked hs.core n (List.range (h.pageAt n).used).reverse
    obtain ⟨l', hl'⟩ := linkFree_spec (p := n) (List.range (h.pageAt n).used).reverse h₁ _ hs.core
      (List.nodup_reverse.2 List.nodup_range) ⟨l, hl₁⟩ fun _ _ => Nat.not_succ_le_self n
    refine ⟨hsp.relink hr, l', hl'.congr rfl rfl rfl (fun _ _ _ => rfl) (fun p c hp => by omega)
      fun p c hp hf => ?_⟩
    have hc := (hr.core.page p).lt_used_of_free hf
    rw [hr.used, hs.used] at hc
    by_cases hpn : p = n
    · subst hpn
      exact Or.inr ⟨rfl, List.mem_reverse.2 (List.mem_range.2 hc)⟩
    · exact Or.inl (by omega)

theorem sweepPages_unused {n kept : Nat} (hu : (h.pageAt n).used = 0) :
    sweepPages (n + 1) kept h = sweepPages n kept h := by
  rw [sweepPages, bind_apply, get_apply]
  simp only [show (h.pages.getD n {}).used = (h.pageAt n).used from rfl, hu, if_true]

/-- A page in use is swept, then released or kept. -/
theorem sweepPages_succ {n kept : Nat} {h₁ : Heap α} {freed₁ : List α} (hu : (h.pageAt n).used ≠ 0)
    (hrun : sweepCells n (List.range (h.pageAt n).used) h = .ok freed₁ h₁) :
    sweepPages (n + 1) kept h = if (h₁.pageAt n).live = 0 ∧ 0 < kept + n then
      ((freed₁ ++ ·) <$> sweepPages n kept : HeapM α (List α)) (h₁.releasePage n)
    else ((freed₁ ++ ·) <$> sweepPages n (kept + 1) : HeapM α (List α))
      (linkFree n (List.range (h.pageAt n).used).reverse h₁) := by
  have hused : (h.pages.getD n {}).used = (h.pageAt n).used := rfl
  have hlive : (h₁.pages.getD n {}).live = (h₁.pageAt n).live := rfl
  rw [sweepPages, bind_apply, get_apply]
  simp only [hused, hu, if_false, bind_apply, hrun, get_apply, hlive, ite_apply', modify_apply, map_apply, pure_apply]

theorem exists_of_append {freed freed₁ : List α} {n kept : Nat}
    (h₀ : ((freed₁ ++ ·) <$> sweepPages n kept : HeapM α (List α)) h = .ok freed h') :
    ∃ freed₂, sweepPages n kept h = .ok freed₂ h' := by
  rw [map_apply] at h₀
  split at h₀ <;> cases h₀
  exact ⟨_, ‹_›⟩

/-- What a sweep makes of page `n`, and how many pages are kept then: the page was not in use, it is released, or it
stays. -/
inductive SweepsPage (n kept : Nat) (h : Heap α) : Nat → Heap α → Prop
  | unused : (h.pageAt n).used = 0 → SweepsPage n kept h kept h
  | released {h₁ : Heap α} : SweptCells n (List.range (h.pageAt n).used) h h₁ → 0 < (h₁.pageAt n).used →
      (h₁.pageAt n).live = 0 → 0 < kept + n → SweepsPage n kept h kept (h₁.releasePage n)
  | stays {h₁ : Heap α} : SweptCells n (List.range (h.pageAt n).used) h h₁ → 0 < (h.pageAt n).used →
      ¬ ((h₁.pageAt n).live = 0 ∧ 0 < kept + n) →
      SweepsPage n kept h (kept + 1) (linkFree n (List.range (h.pageAt n).used).reverse h₁)

/-- A sweep deals with its last page and goes on with the others. -/
theorem exists_of_sweepPages {freed : List α} {n kept : Nat} (hi : h.Core)
    (hrun : sweepPages (n + 1) kept h = .ok freed h') : ∃ kept₁ h₁ freed₁, SweepsPage n kept h kept₁ h₁ ∧ h₁.Core ∧
      sweepPages n kept₁ h₁ = .ok freed₁ h' := by
  by_cases hu : (h.pageAt n).used = 0
  · rw [sweepPages_unused hu] at hrun
    exact ⟨kept, h, freed, .unused hu, hi, hrun⟩
  obtain ⟨freed₁, h₁, hcells, hs, -⟩ := sweepCells_spec (List.range (h.pageAt n).used) h hi List.nodup_range
    fun c hc => List.mem_range.1 hc
  have hpos := Nat.pos_of_ne_zero hu
  rw [sweepPages_succ hu hcells] at hrun
  split_ifs at hrun with hgo
  · obtain ⟨freed₂, hrun⟩ := exists_of_append hrun
    have hu₁ : 0 < (h₁.pageAt n).used := by rwa [hs.used]
    exact ⟨kept, _, freed₂, .released hs hu₁ hgo.1 hgo.2, hs.core.releasePage hu₁ hgo.1, hrun⟩
  · obtain ⟨freed₂, hrun⟩ := exists_of_append hrun
    exact ⟨kept + 1, _, freed₂, .stays hs hpos hgo, (linkFree_relinked hs.core n _).core, hrun⟩

/-- By induction on the pages left. The list holds the free cells of the pages done with. -/
theorem sweepPages_spec : ∀ (n kept : Nat) (h : Heap α), h.Core → (∃ l, FreeListOn h (fun q _ => n ≤ q) l) →
    ∃ freed h', sweepPages n kept h = .ok freed h' ∧ SweptPages (· < n) h h' ∧
      (∃ l, FreeListOn h' (fun _ _ => True) l) ∧
      freed.map some = (h.places Cell.isDoomed n).map fun x => (h.cellAt x.1 x.2).obj := by
  intro n
  induction n with
  | zero =>
    rintro kept h hi ⟨l, hl⟩
    exact ⟨[], h, rfl, ⟨rfl, rfl, hi, fun _ _ => rfl, fun _ _ hp => absurd hp (Nat.not_lt_zero _), fun _ _ _ => rfl⟩,
      ⟨l, hl.congr rfl rfl rfl (fun _ _ _ => rfl) (fun _ _ _ => trivial) fun p _ _ _ => Nat.zero_le p⟩, rfl⟩
  | succ n ih =>
    intro kept h hi hl
    -- what is left of the sweep after the last page, whichever way that page went
    have hrest : ∀ kept' h₁, SweptPages (· = n) h h₁ → (∃ l, FreeListOn h₁ (fun q _ => n ≤ q) l) →
        ∃ freed h', sweepPages n kept' h₁ = .ok freed h' ∧ SweptPages (· < n + 1) h h' ∧
          (∃ l, FreeListOn h' (fun _ _ => True) l) ∧
          freed.map some = (h.places Cell.isDoomed n).map fun x => (h.cellAt x.1 x.2).obj := by
      intro kept' h₁ hs hl₁
      obtain ⟨freed, h', hrun, hs', hl', hfreed⟩ := ih kept' h₁ hs.core hl₁
      have hd : h₁.places Cell.isDoomed n = h.places Cell.isDoomed n :=
        places_congr fun p c hp => by rw [hs.other p c hp.ne, Cell.isDoomed, Cell.isDoomed]
      refine ⟨freed, h', hrun, hs.succ hs', hl', ?_⟩
      rw [hfreed, hd]
      refine List.map_congr_left ?_
      rintro ⟨p, c⟩ hx
      have hp : p ≠ n := (mem_places.1 hx).1.ne
      rw [hs.other p c hp]
    by_cases hu : (h.pageAt n).used = 0
    · have hnone : ((List.range pageCells).filter fun c => (h.cellAt n c).isDoomed) = [] := by
        rw [← filter_doomed hi, hu]
        rfl
      obtain ⟨freed, h', hrun, hs', hl', hfreed⟩ := hrest kept h (.of_unused hi hu) <| by
        obtain ⟨l, hl⟩ := hl
        refine ⟨l, hl.congr rfl rfl rfl (fun _ _ _ => rfl) (fun p c hp => by omega) fun p c hp hf => ?_⟩
        have := (hi.page p).lt_used_of_free hf
        have : p ≠ n := by rintro rfl; omega
        omega
      refine ⟨freed, h', ?_, hs', hl', ?_⟩
      · rw [sweepPages_unused hu]
        exact hrun
      · rw [places_succ, hnone, List.map_nil, List.nil_append]
        exact hfreed
    · obtain ⟨freed₁, h₁, hrun₁, hfreed₁, hrelease, hkeep⟩ := sweepPage_spec hi hu hl
      by_cases hgo : (h₁.pageAt n).live = 0 ∧ 0 < kept + n
      · obtain ⟨freed, h', hrun, hs', hl', hfreed⟩ := hrest kept _ (hrelease hgo.1).1 (hrelease hgo.1).2
        refine ⟨freed₁ ++ freed, h', ?_, hs', hl', ?_⟩
        · rw [sweepPages_succ hu hrun₁, if_pos hgo, map_apply, hrun]
        · rw [List.map_append, hfreed₁, hfreed, places_succ, List.map_append]
      · obtain ⟨freed, h', hrun, hs', hl', hfreed⟩ := hrest (kept + 1) _ hkeep.1 hkeep.2
        refine ⟨freed₁ ++ freed, h', ?_, hs', hl', ?_⟩
        · rw [sweepPages_succ hu hrun₁, if_neg hgo, map_apply, hrun]
        · rw [List.map_append, hfreed₁, hfreed, places_succ, List.map_append]

/-! ## Whole sweeps -/

/-- The heap with an empty free list, as a sweep begins. -/
def forgetFree (h : Heap α) : Heap α := { h with freeHead := -1, freeCount := 0 }

theorem Core.forgetFree (hi : h.Core) : h.forgetFree.Core :=
  ⟨hi.size_le, hi.page, hi.live, hi.marks, hi.nodup_freePages, hi.mem_freePages, hi.current, hi.filling⟩

theorem sweep_of_ok {freed : List α} {h₁ : Heap α} (hrun : sweepPages h.pages.size 0 h.forgetFree = .ok freed h₁) :
    sweep h = .ok freed { h₁ with sweeps := h₁.sweeps + 1 } := by
  rw [sweep, bind_of_ok (modify_apply _ _), bind_of_ok (get_apply _)]
  exact bind_of_ok hrun

theorem exists_of_sweep {freed : List α} (hrun : sweep h = .ok freed h') : ∃ h₁,
    sweepPages h.pages.size 0 h.forgetFree = .ok freed h₁ ∧ h' = { h₁ with sweeps := h₁.sweeps + 1 } := by
  obtain ⟨_, h₀, hmodify, hrun⟩ := exists_of_bind hrun
  cases hmodify
  obtain ⟨_, _, hget, hrun⟩ := exists_of_bind hrun
  cases hget
  obtain ⟨freed₁, h₁, hpages, hrun⟩ := exists_of_bind hrun
  obtain ⟨_, _, hmodify, hrun⟩ := exists_of_bind hrun
  cases hmodify
  cases hrun
  exact ⟨h₁, hpages, rfl⟩

structure Swept (h h' : Heap α) : Prop where
  inv : h'.Inv
  rest : h' = { h with pages := h'.pages, freePages := h'.freePages, current := h'.current,
                       freeHead := h'.freeHead, freeCount := h'.freeCount, live := h'.live,
                       sweeps := h.sweeps + 1 }
  size : h'.pages.size = h.pages.size
  obj : ∀ p c, (h'.cellAt p c).obj = (h.cellAt p c).swept.obj
  gen : ∀ p c, (h'.cellAt p c).gen = (h.cellAt p c).swept.gen
  marked : ∀ p c, (h'.cellAt p c).marked = (h.cellAt p c).marked

theorem sweep_spec (hi : h.Core) : ∃ freed h', sweep h = .ok freed h' ∧ Swept h h' ∧
    freed.map some = (h.places Cell.isDoomed h.pages.size).map fun x => (h.cellAt x.1 x.2).obj := by
  have hl₀ : FreeListOn h.forgetFree (fun q _ => h.pages.size ≤ q) [] := by
    refine ⟨.done (show (-1 : Int32) < 0 by decide), List.nodup_nil, by simp, Nat.zero_le _, fun _ => ⟨?_, rfl⟩⟩
    intro p c hp hf
    rw [cellAt_eq, pageAt_of_le (show h.forgetFree.pages.size ≤ p from hp), Page.cellAt_empty] at hf
    cases hf
  obtain ⟨freed, h₁, hrun, hs, ⟨l, hl⟩, hfreed⟩ := sweepPages_spec h.pages.size 0 h.forgetFree hi.forgetFree ⟨[], hl₀⟩
  have hcell : ∀ p c, (h₁.cellAt p c).obj = (h.cellAt p c).swept.obj ∧
      (h₁.cellAt p c).gen = (h.cellAt p c).swept.gen := by
    intro p c
    by_cases hp : p < h.pages.size
    · exact hs.swept p c hp
    · have hused : (h.pageAt p).used = 0 := by rw [pageAt_of_le (Nat.not_lt.1 hp)]
      rw [hs.other p c hp, swept_of_le hi (by rw [hused]; exact Nat.zero_le c)]
      exact ⟨rfl, rfl⟩
  refine ⟨freed, { h₁ with sweeps := h₁.sweeps + 1 }, sweep_of_ok hrun, ⟨⟨⟨hs.core.size_le, hs.core.page, hs.core.live,
    hs.core.marks, hs.core.nodup_freePages, hs.core.mem_freePages, hs.core.current, hs.core.filling⟩, l, ?_⟩, ?_,
    hs.size, fun p c => (hcell p c).1, fun p c => (hcell p c).2, hs.marked⟩, hfreed⟩
  · exact ⟨hl.chain, hl.nodup, fun x hx => (hl.free x hx).1, hl.length_le,
      fun hb => ⟨fun p c hf => (hl.full hb).1 p c trivial hf, (hl.full hb).2⟩⟩
  · rw [hs.rest]
    rfl

/-- What is freed and what is left make up what there was. -/
theorem Swept.live_add (hi : h.Core) (hs : Swept h h') :
    h'.live + (h.places Cell.isDoomed h.pages.size).length = h.live := by
  have hpage : ∀ p, (h.pageAt p).count (·.obj.isSome) =
      (h'.pageAt p).count (·.obj.isSome) + (h.pageAt p).count Cell.isDoomed := by
    refine fun p => Page.count_add fun c => ?_
    rw [← cellAt_eq, ← cellAt_eq, hs.obj, Cell.swept]
    cases hd : (h.cellAt p c).isDoomed
    · rfl
    · simp [(Bool.and_eq_true_iff.1 hd).1, Cell.freed]
  rw [hs.inv.live_eq, hi.live_eq, length_places, total, hs.size, total, total, ← Finset.sum_add_distrib]
  exact Finset.sum_congr rfl fun p _ => (hpage p).symm

end Heap

end RubyMachine
