import RubyMachine.Proofs.Heap.Invariant

/-! Marking, and other changes inside cells. Marking marks exactly the cells that the given values reach
and changes nothing else. -/

namespace RubyMachine.Heap

variable {α : Type} {h h' : Heap α}

/-! ## Changes inside cells -/

/-- Two heaps with the same cells taken and free; objects, marks and links may differ. -/
structure SameShape (h h' : Heap α) : Prop where
  size : h'.pages.size = h.pages.size
  freePages : h'.freePages = h.freePages
  current : h'.current = h.current
  live : h'.live = h.live
  used : ∀ p, (h'.pageAt p).used = (h.pageAt p).used
  pageLive : ∀ p, (h'.pageAt p).live = (h.pageAt p).live
  obj : ∀ p c, (h'.cellAt p c).obj.isSome = (h.cellAt p c).obj.isSome
  free : ∀ p c, (h'.cellAt p c).free = (h.cellAt p c).free

theorem Core.of_sameShape (hi : h.Core) (hs : SameShape h h')
    (hmark : ∀ p c, (h'.cellAt p c).marked = true → (h.cellAt p c).obj.isSome = true)
    (hm : h'.markCount = h'.total (Page.count (·.marked))) : h'.Core := by
  have hnone : ∀ p c, (h'.cellAt p c).obj.isNone = (h.cellAt p c).obj.isNone := fun p c => by
    rw [← Option.not_isSome, ← Option.not_isSome, hs.obj]
  refine ⟨hs.size ▸ hi.size_le, fun p => ⟨?_, fun c hc => ?_, fun c hc => ?_, fun c hc => ?_, ?_⟩, ?_, hm,
    hs.freePages ▸ hi.nodup_freePages, fun p => ?_, fun p hp => ?_, fun p => ?_⟩
  · rw [hs.used]; exact (hi.page p).used_le
  · rw [hs.used] at hc
    have hfresh := (hi.page p).fresh c hc
    refine ⟨?_, (hs.free p c).trans hfresh.2⟩
    rw [← Option.isNone_iff_eq_none, ← cellAt_eq, hnone, cellAt_eq, hfresh.1]
    rfl
  · rw [hs.used] at hc
    rw [← cellAt_eq, hs.free, hnone]
    exact (hi.page p).taken c hc
  · rw [← cellAt_eq] at hc ⊢
    rw [hs.obj]
    exact hmark p c hc
  · have hcount : (h'.pageAt p).count (·.obj.isSome) = (h.pageAt p).count (·.obj.isSome) :=
      Page.count_congr fun c _ => hs.obj p c
    rw [hcount, hs.pageLive, (hi.page p).live]
  · rw [hs.live, hi.live]
    exact (total_congr hs.size fun p _ => hs.pageLive p).symm
  · rw [hs.used, hs.size, hs.freePages]; exact hi.mem_freePages p
  · rw [hs.used, hs.size]; exact hi.current p (hs.current ▸ hp)
  · rw [hs.used, hs.current]; exact hi.filling p

theorem FreeList.of_sameShape {l : List (Nat × Nat)} (hl : h.FreeList l) (hs : SameShape h h')
    (hhead : h'.freeHead = h.freeHead) (hcount : h'.freeCount = h.freeCount)
    (hnext : ∀ p c, (h'.cellAt p c).next = (h.cellAt p c).next) : h'.FreeList l := by
  refine ⟨hhead ▸ hl.chain.congr fun x _ => hnext x.1 x.2, hl.nodup,
    fun x hx => (hs.free ..).trans (hl.free x hx), hcount ▸ hl.length_le, fun hbound => ?_⟩
  have hfull := hl.full (hs.size ▸ hbound)
  exact ⟨fun p c hc => hfull.1 p c (hs.free p c ▸ hc), hcount ▸ hfull.2⟩

theorem pageAt_modifyCell {p : Nat} (hp : p < h.pages.size) (c q : Nat) (g : Cell α → Cell α) :
    (h.modifyCell p c g).pageAt q = if q = p then (h.pageAt p).modifyCell c g else h.pageAt q := by
  rw [modifyCell, pageAt_modifyPage]
  by_cases hq : q = p <;> simp [hq, hp]

theorem sameShape_modifyCell {p c : Nat} {g : Cell α → Cell α} (hp : p < h.pages.size) (m : Nat)
    (hobj : (g (h.cellAt p c)).obj.isSome = (h.cellAt p c).obj.isSome)
    (hfree : (g (h.cellAt p c)).free = (h.cellAt p c).free) :
    SameShape h { h.modifyCell p c g with markCount := m } := by
  have hpage := pageAt_modifyCell hp c (g := g)
  have hcell := cellAt_modifyCell h hp c (f := g)
  refine ⟨size_modifyPage .., rfl, rfl, rfl, fun q => ?_, fun q => ?_, fun q d => ?_, fun q d => ?_⟩
  · show ((h.modifyCell p c g).pageAt q).used = _
    rw [hpage]
    split_ifs with hq
    · rw [hq, Page.used_modifyCell]
    · rfl
  · show ((h.modifyCell p c g).pageAt q).live = _
    rw [hpage]
    split_ifs with hq
    · rw [hq, Page.live_modifyCell]
    · rfl
  · show ((h.modifyCell p c g).cellAt q d).obj.isSome = _
    rw [hcell]
    split_ifs with hq
    · rw [hq.1, hq.2, hobj]
    · rfl
  · show ((h.modifyCell p c g).cellAt q d).free = _
    rw [hcell]
    split_ifs with hq
    · rw [hq.1, hq.2, hfree]
    · rfl

theorem update_of_le {r : Ref} (hp : h.pages.size ≤ r.page) (f : α → α) : h.update r f = h := by
  have hsame : h.pages.modify r.page (fun p => p.modifyCell r.cell fun c => { c with obj := c.obj.map f }) =
      h.pages := by
    apply Array.ext
    · simp
    · intro i h1 h2
      rw [Array.getElem_modify, if_neg (by omega)]
  simp only [Heap.update, Heap.modifyCell, modifyPage, hsame]

/-- Changing the object behind a reference, whatever the reference, is a change inside a cell. -/
theorem Inv.update (hi : h.Inv) (r : Ref) (f : α → α) : (h.update r f).Inv := by
  by_cases hp : r.page < h.pages.size
  · have hs : SameShape h (h.update r f) := sameShape_modifyCell hp h.markCount (by simp) rfl
    have hcell := cellAt_modifyCell h hp r.cell (f := fun c => { c with obj := c.obj.map f })
    have hmark : ∀ p c, ((h.update r f).cellAt p c).marked = (h.cellAt p c).marked := by
      intro p c
      rw [Heap.update, hcell]
      split_ifs with hq
      · rw [hq.1, hq.2]
      · rfl
    have hnext : ∀ p c, ((h.update r f).cellAt p c).next = (h.cellAt p c).next := by
      intro p c
      rw [Heap.update, hcell]
      split_ifs with hq
      · rw [hq.1, hq.2]
      · rfl
    refine ⟨hi.toCore.of_sameShape hs (fun p c hc => ?_) ?_,
      hi.freeList.imp fun l hl => hl.of_sameShape hs rfl rfl hnext⟩
    · exact (hi.page p).marked c ((hmark p c).symm.trans hc)
    · exact hi.marks.trans (total_congr hs.size fun p _ => Page.count_congr fun c _ => hmark p c).symm
  · rw [update_of_le (Nat.not_lt.1 hp)]
    exact hi

/-! ## Clearing marks -/

theorem pageAt_clearMarks (h : Heap α) (p : Nat) : h.clearMarks.pageAt p =
    { h.pageAt p with cells := (h.pageAt p).cells.map fun c => { c with marked := false } } := by
  simp only [pageAt, clearMarks, Array.getD_eq_getD_getElem?, Array.getElem?_map]
  cases h.pages[p]? with
  | none => simp
  | some _ => rfl

theorem cellAt_clearMarks (h : Heap α) (p c : Nat) :
    h.clearMarks.cellAt p c = { h.cellAt p c with marked := false } := by
  rw [cellAt_eq, pageAt_clearMarks, cellAt_eq]
  simp only [Page.cellAt, Array.getD_eq_getD_getElem?, Array.getElem?_map]
  cases (h.pageAt p).cells[c]? <;> rfl

theorem sameShape_clearMarks (h : Heap α) : SameShape h h.clearMarks := by
  have hcell := cellAt_clearMarks h
  refine ⟨by simp [clearMarks], rfl, rfl, rfl, fun p => ?_, fun p => ?_, fun p c => ?_, fun p c => ?_⟩
  · rw [pageAt_clearMarks]
  · rw [pageAt_clearMarks]
  · rw [hcell]
  · rw [hcell]

theorem Inv.clearMarks (hi : h.Inv) : h.clearMarks.Inv := by
  have hs := sameShape_clearMarks h
  refine ⟨hi.toCore.of_sameShape hs (fun p c hc => ?_) ?_,
    hi.freeList.imp fun l hl => hl.of_sameShape hs rfl rfl fun p c => by rw [cellAt_clearMarks]⟩
  · rw [cellAt_clearMarks] at hc
    cases hc
  · have hzero : ∀ p, (h.clearMarks.pageAt p).count (·.marked) = 0 := fun p =>
      Page.count_eq_zero.2 fun c _ => by rw [← cellAt_eq, cellAt_clearMarks]
    exact (Finset.sum_eq_zero fun p _ => hzero p).symm

/-! ## Reading through references -/

theorem read_eq_ok {r : Ref} {obj : α} : h.read r = .ok obj ↔
    r.page < h.pages.size ∧ r.cell < pageCells ∧ (h.cellAt r.page r.cell).free = false ∧
      (h.cellAt r.page r.cell).obj = some obj ∧ (h.cellAt r.page r.cell).gen = r.gen := by
  unfold read
  split_ifs with hout
  · constructor
    · intro he; cases he
    · rintro ⟨h1, h2, -⟩; omega
  · simp only
    split
    · rename_i o hf ho
      rw [hf, ho]
      split_ifs with hg
      · constructor
        · intro he; cases he; exact ⟨by omega, by omega, rfl, rfl, hg⟩
        · rintro ⟨-, -, -, he, -⟩; cases he; rfl
      · constructor
        · intro he; cases he
        · rintro ⟨-, -, -, -, he⟩; exact absurd he hg
    · rename_i hno
      constructor
      · intro he; cases he
      · rintro ⟨-, -, hf, ho, -⟩; exact (hno _ hf ho).elim

/-! ## Visiting a cell -/

def setMark (h : Heap α) (p c : Nat) : Heap α :=
  { h.modifyCell p c fun x => { x with marked := true } with markCount := h.markCount + 1 }

theorem cellAt_setMark {p : Nat} (hp : p < h.pages.size) (c q d : Nat) : (h.setMark p c).cellAt q d =
    if q = p ∧ d = c then { h.cellAt p c with marked := true } else h.cellAt q d :=
  cellAt_modifyCell h hp c q d _

theorem pageAt_setMark {p : Nat} (hp : p < h.pages.size) (c q : Nat) : (h.setMark p c).pageAt q =
    if q = p then (h.pageAt p).modifyCell c fun x => { x with marked := true } else h.pageAt q :=
  pageAt_modifyCell hp c q _

theorem sameShape_setMark {p : Nat} (hp : p < h.pages.size) (c : Nat) : SameShape h (h.setMark p c) :=
  sameShape_modifyCell hp (h.markCount + 1) rfl rfl

theorem Inv.setMark (hi : h.Inv) {p c : Nat} (hp : p < h.pages.size) (hc : c < pageCells)
    (hobj : (h.cellAt p c).obj.isSome = true) (hm : (h.cellAt p c).marked = false) : (h.setMark p c).Inv := by
  have hs := sameShape_setMark hp c
  have hnext : ∀ q d, ((h.setMark p c).cellAt q d).next = (h.cellAt q d).next := by
    intro q d
    rw [cellAt_setMark hp]
    split_ifs with hq
    · rw [hq.1, hq.2]
    · rfl
  refine ⟨hi.toCore.of_sameShape hs (fun q d hd => ?_) ?_,
    hi.freeList.imp fun l hl => hl.of_sameShape hs rfl rfl hnext⟩
  · rw [cellAt_setMark hp] at hd
    split_ifs at hd with hq
    · rw [hq.1, hq.2]; exact hobj
    · exact (hi.page q).marked d hd
  · have htot := total_of_agree (f := Page.count (·.marked)) (g := Page.count (·.marked)) hp hs.size
      fun q hq => by rw [pageAt_setMark hp, if_neg hq]
    have hcount := Page.count_modifyCell (·.marked) (h.pageAt p) (fun x => { x with marked := true }) hc
    rw [cellAt_eq] at hm
    simp only [hm, Bool.toNat_false, Bool.toNat_true] at hcount
    rw [pageAt_setMark hp, if_pos rfl, ← hi.marks] at htot
    show h.markCount + 1 = (h.setMark p c).total _
    omega

theorem visit_eq (h : Heap α) (r : Ref) : visit r h =
    if h.pages.size ≤ r.page ∨ pageCells ≤ r.cell then .error (.markOutsidePages r) h
    else if h.debug = true ∧ (h.cellAt r.page r.cell).free = true then .error (.markFree r) h
    else if h.debug = true ∧ (h.cellAt r.page r.cell).gen ≠ r.gen then
      .error (.markStale r (h.cellAt r.page r.cell).gen) h
    else match (h.cellAt r.page r.cell).obj, (h.cellAt r.page r.cell).marked with
      | some obj, false => .ok (some obj) (h.setMark r.page r.cell)
      | _, _ => .ok none h := by
  simp only [visit, bind_apply, get_apply, ite_apply', throw_apply]
  generalize hx : h.cellAt r.page r.cell = x
  obtain ⟨obj, gen, free, next, marked⟩ := x
  split_ifs with h1 h2 h3 h4 h5 <;> try simp_all
  all_goals rcases obj with _ | obj <;> cases marked <;> rfl

/-- A visit that ends well finds nothing to do, or marks a cell that holds an object. -/
theorem visit_ok {r : Ref} {o : Option α} (hv : visit r h = .ok o h') :
    (o = none ∧ h' = h) ∨ ∃ obj, o = some obj ∧ h' = h.setMark r.page r.cell ∧ r.page < h.pages.size ∧
      r.cell < pageCells ∧ (h.cellAt r.page r.cell).obj = some obj ∧
      (h.cellAt r.page r.cell).marked = false := by
  rw [visit_eq] at hv
  split_ifs at hv with h1 h2 h3
  split at hv
  · rename_i obj ho hm
    cases hv
    exact Or.inr ⟨obj, rfl, rfl, by omega, by omega, ho, hm⟩
  · cases hv
    exact Or.inl ⟨rfl, rfl⟩

theorem visit_error {r : Ref} {d : Defect} (hv : visit r h = .error d h') : h' = h := by
  rw [visit_eq] at hv
  split_ifs at hv
  · cases hv; rfl
  · cases hv; rfl
  · cases hv; rfl
  · split at hv <;> cases hv

/-- A visit through a good reference. -/
theorem visit_of_read {r : Ref} {obj : α} (hr : h.read r = .ok obj) : visit r h =
    if (h.cellAt r.page r.cell).marked = true then .ok none h
    else .ok (some obj) (h.setMark r.page r.cell) := by
  obtain ⟨hp, hc, hf, ho, hg⟩ := read_eq_ok.1 hr
  rw [visit_eq, if_neg (by omega), if_neg (by simp [hf]), if_neg (by simp [hg]), ho]
  cases (h.cellAt r.page r.cell).marked <;> rfl

/-! ## Marking all that is reached -/

section After

variable {P : Heap α → Prop} (hmark : ∀ h : Heap α, ∀ p c, P h → p < h.pages.size → c < pageCells →
  (h.cellAt p c).obj.isSome = true → (h.cellAt p c).marked = false → P (h.setMark p c))

include hmark

theorem visit_ok_keeps {r : Ref} {o : Option α} (hP : P h) (hv : visit r h = .ok o h') : P h' := by
  rcases visit_ok hv with ⟨-, rfl⟩ | ⟨obj, -, rfl, hp, hc, ho, hm⟩
  · exact hP
  · exact hmark h _ _ hP hp hc (by simp [ho]) hm

theorem after_visit (r : Ref) (hP : P h) : P (after (visit r) h) := by
  cases hv : visit r h with
  | error d h₁ => rw [after_of_error hv, visit_error hv]; exact hP
  | ok o h₁ => rw [after_of_ok hv]; exact visit_ok_keeps hmark hP hv

/-- What marking one cell keeps is kept by marking all that values reach. -/
theorem after_markAll (refs : α → List Value) :
    ∀ fuel vs, ∀ h : Heap α, P h → P (after (markAll refs fuel vs) h) := by
  intro fuel
  induction fuel with
  | zero =>
    intro vs h hP
    cases vs <;> simpa [markAll, after] using hP
  | succ fuel ih =>
    intro vs
    induction vs with
    | nil => intro h hP; simpa [markAll, after] using hP
    | cons v rest ihv =>
      intro h hP
      rw [markAll]
      split_ifs with hv
      · refine after_bind (after_visit hmark _ hP) fun o h₁ hvis => ?_
        cases o with
        | none => exact ihv _ (visit_ok_keeps hmark hP hvis)
        | some obj => exact ih _ _ (visit_ok_keeps hmark hP hvis)
      · exact ihv h hP

theorem after_markValues (refs : α → List Value) (vs : List Value) (hP : P h) :
    P (after (markValues refs vs) h) := by
  rw [markValues]
  exact after_bind hP fun _ _ hget => by cases hget; exact after_markAll hmark refs _ vs h hP

theorem after_markRef (refs : α → List Value) (r : Ref) (hP : P h) : P (after (markRef refs r) h) := by
  refine after_bind (after_visit hmark r hP) fun o h₁ hvis => ?_
  have hP₁ := visit_ok_keeps hmark hP hvis
  cases o with
  | none => exact hP₁
  | some obj =>
    have hall := after_markValues hmark refs (refs obj) hP₁
    refine after_bind hall fun _ h₂ hrun => ?_
    rw [after_of_ok hrun] at hall
    exact hall

theorem after_markValue (refs : α → List Value) (v : Value) (hP : P h) : P (after (markValue refs v) h) := by
  unfold markValue
  split_ifs
  · exact after_markRef hmark refs _ hP
  · exact hP

end After

end RubyMachine.Heap
