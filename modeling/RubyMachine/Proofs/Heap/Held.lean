import RubyMachine.Proofs.Heap.Use

/-! What a heap holds: only an allocation adds to it. -/

namespace RubyMachine.Heap

variable {α : Type} {h h' h'' : Heap α}

/-- Objects may have gone; none has come, and none has changed. -/
def Fewer (h h' : Heap α) : Prop := ∀ p c o, (h'.cellAt p c).obj = some o → (h.cellAt p c).obj = some o

namespace Fewer

theorem refl (h : Heap α) : h.Fewer h := fun _ _ _ ho => ho

theorem trans (h₁ : h.Fewer h') (h₂ : h'.Fewer h'') : h.Fewer h'' := fun p c o ho => h₁ p c o (h₂ p c o ho)

theorem of_cells (hc : ∀ p c, (h'.cellAt p c).obj = (h.cellAt p c).obj) : h.Fewer h' :=
  fun p c _ ho => (hc p c).symm.trans ho

theorem modifyPage (p : Nat) {f : Page α → Page α}
    (hf : ∀ g : Page α, ∀ c o, ((f g).cellAt c).obj = some o → (g.cellAt c).obj = some o) : h.Fewer (h.modifyPage p f) := by
  intro q c o ho
  rw [cellAt_eq, pageAt_modifyPage] at ho
  split at ho
  · rename_i hq
    rw [cellAt_eq, hq.1]
    exact hf _ c o ho
  · exact ho

theorem modifyCell (p c : Nat) {f : Cell α → Cell α} (hf : ∀ x o, (f x).obj = some o → x.obj = some o) :
    h.Fewer (h.modifyCell p c f) := by
  refine .modifyPage p fun g d o ho => ?_
  rw [Page.cellAt_modifyCell] at ho
  split at ho
  · subst d
    exact hf _ o ho
  · exact ho

end Fewer

theorem fewer_clearMarks (h : Heap α) : h.Fewer h.clearMarks :=
  .of_cells fun p c => by rw [cellAt_clearMarks]

theorem fewer_setMark (p c : Nat) : h.Fewer (h.setMark p c) :=
  .modifyCell p c (f := fun x => { x with marked := true }) fun _ _ ho => ho

theorem fewer_markValues (refs : α → List Value) (vs : List Value) : h.Fewer (after (markValues refs vs) h) :=
  after_markValues (P := h.Fewer) (fun _ _ _ hi _ _ _ _ => hi.trans (fewer_setMark _ _)) refs vs (.refl h)

/-! ## Sweeping -/

theorem fewer_freeCell (p c : Nat) : h.Fewer (h.freeCell p c) := by
  refine Fewer.modifyPage p (f := fun g => { g.modifyCell c Cell.freed with live := (g.modifyCell c Cell.freed).live - 1 })
    fun g d o ho => ?_
  have ho : ((g.modifyCell c Cell.freed).cellAt d).obj = some o := ho
  rw [Page.cellAt_modifyCell] at ho
  split at ho
  · cases ho
  · exact ho

theorem fewer_linkFree (p : Nat) (cs : List Nat) (h : Heap α) : h.Fewer (linkFree p cs h) := by
  induction cs generalizing h with
  | nil => exact .refl h
  | cons c cs ih =>
    unfold linkFree
    split
    · refine Fewer.trans ?_ (ih _)
      exact .modifyCell p c (f := fun x => { x with next := h.freeHead }) fun _ _ ho => ho
    · exact ih h

theorem fewer_releasePage (p : Nat) : h.Fewer (h.releasePage p) := by
  refine Fewer.modifyPage p (f := resetPage) fun g c o ho => ?_
  rw [cellAt_resetPage] at ho
  split at ho
  · cases ho
  · exact ho

theorem fewer_sweepCells (p : Nat) (cs : List Nat) (hf : h.Fewer h') : h.Fewer (after (sweepCells p cs) h') := by
  induction cs generalizing h' with
  | nil => exact hf
  | cons c cs ih =>
    unfold sweepCells
    refine after_bind hf fun _ _ hg => ?_
    cases hg
    dsimp only
    split
    · split
      · exact after_bind hf fun _ _ he => by cases he
      · exact ih hf
    · split
      · exact ih hf
      · have hc := hf.trans (fewer_freeCell p c)
        refine after_bind hc fun _ _ hm => ?_
        cases hm
        exact after_bind (ih hc) fun _ _ hr => after_of_ok hr ▸ ih hc

theorem fewer_sweepPages (n kept : Nat) (hf : h.Fewer h') : h.Fewer (after (sweepPages n kept) h') := by
  induction n generalizing kept h' with
  | zero => exact hf
  | succ n ih =>
    unfold sweepPages
    refine after_bind hf fun _ _ hg => ?_
    cases hg
    dsimp only
    split
    · exact ih _ hf
    have hc := fewer_sweepCells n (List.range (h'.pages.getD n {}).used) hf
    refine after_bind hc fun _ h₁ hr => ?_
    rw [after_of_ok hr] at hc
    refine after_bind hc fun _ _ hg => ?_
    cases hg
    split
    · have hp := hc.trans (fewer_releasePage n)
      refine after_bind hp fun _ _ hm => ?_
      cases hm
      exact after_bind (ih _ hp) fun _ _ hr => after_of_ok hr ▸ ih _ hp
    · have hp := hc.trans (fewer_linkFree n (List.range (h'.pages.getD n {}).used).reverse h₁)
      refine after_bind hp fun _ _ hm => ?_
      cases hm
      exact after_bind (ih _ hp) fun _ _ hr => after_of_ok hr ▸ ih _ hp

theorem fewer_sweep : h.Fewer (after sweep h) := by
  have hs : h.Fewer { h with freeHead := -1, freeCount := 0 } := .of_cells fun _ _ => rfl
  refine after_bind hs fun _ _ hm => ?_
  cases hm
  refine after_bind hs fun _ _ hg => ?_
  cases hg
  have hp := fewer_sweepPages h.pages.size 0 hs
  refine after_bind hp fun _ h₁ hr => ?_
  rw [after_of_ok hr] at hp
  exact hp.trans (.of_cells fun _ _ => rfl)

/-! ## Allocation -/

theorem fewer_bumpPage : h.Fewer (after bumpPage h) := by
  have next : h.Fewer (after bumpPage.next h) := by
    unfold bumpPage.next
    refine after_bind (.refl h) fun _ _ hg => ?_
    cases hg
    split
    · exact .of_cells fun _ _ => rfl
    · dsimp only
      split
      · exact after_bind (.refl h) fun _ _ he => by cases he
      · exact .of_cells fun p c => congrArg (fun g : Page α => (g.cellAt c).obj) (pageAt_push h p)
  unfold bumpPage
  refine after_bind (.refl h) fun _ _ hg => ?_
  cases hg
  split
  · split
    · exact .refl h
    · exact next
  · exact next

theorem fewer_takeFresh : h.Fewer (after takeFresh h) := by
  refine after_bind fewer_bumpPage fun p h₁ hr => ?_
  have hb : h.Fewer h₁ := after_of_ok hr ▸ fewer_bumpPage
  refine after_bind hb fun _ _ hg => ?_
  cases hg
  have hm := hb.trans (.modifyPage p (f := fun g => { g with used := g.used + 1 }) fun _ _ _ ho => ho)
  exact after_bind hm fun _ _ hm => by
    cases hm
    assumption

theorem fewer_takeFree : h.Fewer (after takeFree h) := by
  refine after_bind (.refl h) fun _ _ hg => ?_
  cases hg
  dsimp only
  split
  · exact after_bind (.refl h) fun _ _ he => by cases he
  split
  · exact after_bind (.refl h) fun _ _ he => by cases he
  · exact .of_cells fun _ _ => rfl

theorem held_fillCell {p c q d : Nat} {obj o : α} (ho : ((h.fillCell p c obj).cellAt q d).obj = some o) :
    (h.cellAt q d).obj = some o ∨ o = obj := by
  have ho : (((h.modifyPage p fun g =>
      let g := g.modifyCell c fun x => { x with obj := some obj, free := false, next := -1 }
      { g with live := g.live + 1 }).pageAt q).cellAt d).obj = some o := ho
  rw [pageAt_modifyPage] at ho
  split at ho
  · rename_i hq
    have ho : (((h.pageAt p).modifyCell c fun x => { x with obj := some obj, free := false, next := -1 }).cellAt d).obj =
      some o := ho
    rw [Page.cellAt_modifyCell] at ho
    split at ho
    · exact .inr (Option.some.inj ho).symm
    · exact .inl (by rw [cellAt_eq, hq.1]; exact ho)
  · exact .inl ho

theorem alloc_eq (obj : α) (h : Heap α) : alloc obj h =
    match (if 0 ≤ h.countAllocation.freeHead then takeFree else takeFresh) h.countAllocation with
    | .ok (p, c) h' => .ok (.ofRef (.make (UInt64.ofNat p) (UInt64.ofNat c) (h'.cellAt p c).gen)) (h'.fillCell p c obj)
    | .error d h' => .error d h' := by
  simp only [alloc, bind_apply, modify_apply, get_apply]
  split
  · rw [bind_apply]
    cases takeFree h.countAllocation <;> rfl
  · rw [bind_apply]
    cases takeFresh h.countAllocation <;> rfl

theorem fewer_taken : h.Fewer (after (if 0 ≤ h.countAllocation.freeHead then takeFree else takeFresh) h.countAllocation) := by
  have counted : h.Fewer h.countAllocation :=
    .of_cells fun p c => congrArg (fun g : Array (Page α) => ((g.getD p {}).cells.getD c {}).obj) (countAllocation_pages h)
  split
  · exact counted.trans fewer_takeFree
  · exact counted.trans fewer_takeFresh

/-- What is there after an allocation was there before it, or is what was allocated. -/
theorem held_alloc {obj : α} {v : Value} (hr : alloc obj h = .ok v h') {p c : Nat} {o : α}
    (ho : (h'.cellAt p c).obj = some o) : (h.cellAt p c).obj = some o ∨ o = obj := by
  rw [alloc_eq] at hr
  split at hr
  · rename_i q d h₁ ht
    have hf := after_of_ok ht ▸ fewer_taken (h := h)
    cases hr
    exact (held_fillCell ho).imp_left (hf p c o)
  · cases hr

theorem fewer_alloc {obj : α} {d : Defect} (hr : alloc obj h = .error d h') : h.Fewer h' := by
  rw [alloc_eq] at hr
  split at hr
  · cases hr
  · rename_i ht
    cases hr
    exact after_of_error ht ▸ fewer_taken

theorem held_update (r : Ref) (f : α → α) {p c : Nat} {o : α} (ho : ((h.update r f).cellAt p c).obj = some o) :
    (h.cellAt p c).obj = some o ∨ ∃ o', (h.cellAt p c).obj = some o' ∧ f o' = o := by
  rw [cellAt_update, Option.map_eq_some_iff] at ho
  obtain ⟨o', ho', he⟩ := ho
  split at he
  · exact .inr ⟨o', ho', he⟩
  · exact .inl (he ▸ ho')

end RubyMachine.Heap
