import RubyMachine.Proofs.Heap.Use

/-! How heaps grow: by a page at most for each object, so there is room for as many objects as pages may
still be added. -/

namespace RubyMachine.Heap

variable {α : Type} {h h' : Heap α}

theorem pages_takeFree (h : Heap α) : (after takeFree h).pages.size = h.pages.size := by
  unfold takeFree after
  simp only [bind_apply, get_apply]
  split_ifs <;> rfl

theorem pages_next (h : Heap α) : (after bumpPage.next h).pages.size ≤ h.pages.size + 1 := by
  unfold bumpPage.next after
  simp only [bind_apply, get_apply]
  cases h.freePages with
  | cons p rest => simp
  | nil =>
    dsimp only
    split_ifs <;> simp

theorem bumpPage_eq (h : Heap α) : bumpPage h = h.current.elim (bumpPage.next h) fun p =>
    if (h.pages.getD p {}).used < pageCells then .ok p h else bumpPage.next h := by
  unfold bumpPage
  simp only [bind_apply, get_apply]
  cases h.current <;> simp

theorem pages_bumpPage (h : Heap α) : (after bumpPage h).pages.size ≤ h.pages.size + 1 := by
  unfold after
  rw [bumpPage_eq]
  cases h.current with
  | none => exact pages_next h
  | some p =>
    rw [Option.elim_some]
    split_ifs
    · exact Nat.le_succ _
    · exact pages_next h

theorem pages_takeFresh (h : Heap α) : (after takeFresh h).pages.size ≤ h.pages.size + 1 := by
  have hb := pages_bumpPage h
  unfold after takeFresh at *
  simp only [bind_apply, get_apply, modify_apply, pure_apply]
  cases hr : bumpPage h with
  | ok p t => rw [hr] at hb; simpa [modifyPage] using hb
  | error d t => rw [hr] at hb; exact hb

theorem pages_alloc (h : Heap α) (obj : α) : (after (alloc obj) h).pages.size ≤ h.pages.size + 1 := by
  have hfill : ∀ (t : Heap α) p c, (t.fillCell p c obj).pages.size = t.pages.size := fun t p c => by
    simp [fillCell, modifyPage]
  have hfree := (pages_takeFree h.countAllocation).le
  have hfresh := pages_takeFresh h.countAllocation
  rw [countAllocation_pages] at hfree hfresh
  unfold after at hfree hfresh ⊢
  by_cases hf : 0 ≤ h.countAllocation.freeHead
  · cases hr : takeFree h.countAllocation with
    | ok x t =>
      rw [hr] at hfree
      simp only [alloc, bind_apply, modify_apply, get_apply, if_pos hf, hr, pure_apply, hfill]
      exact hfree.trans (Nat.le_succ _)
    | error d t =>
      rw [hr] at hfree
      simp only [alloc, bind_apply, modify_apply, get_apply, if_pos hf, hr]
      exact hfree.trans (Nat.le_succ _)
  · cases hr : takeFresh h.countAllocation with
    | ok x t =>
      rw [hr] at hfresh
      simp only [alloc, bind_apply, modify_apply, get_apply, if_neg hf, hr, pure_apply, hfill]
      exact hfresh
    | error d t =>
      rw [hr] at hfresh
      simp only [alloc, bind_apply, modify_apply, get_apply, if_neg hf, hr]
      exact hfresh

/-! ## Heaps with more objects -/

/-- A heap with the objects of another one, at the same references, on at most `n` more pages. -/
structure Extends (n : Nat) (h h' : Heap α) : Prop where
  inv : h'.Inv
  read : ∀ r o, h.read r = .ok o → h'.read r = .ok o
  pages : h'.pages.size ≤ h.pages.size + n

theorem Extends.refl (hi : h.Inv) : Extends 0 h h := ⟨hi, fun _ _ hr => hr, le_rfl⟩

theorem Extends.trans {n k : Nat} {h'' : Heap α} (he : Extends n h h') (he' : Extends k h' h'') : Extends (n + k) h h'' :=
  ⟨he'.inv, fun r o hr => he'.read r o (he.read r o hr), by have := he.pages; have := he'.pages; omega⟩

theorem Extends.weaken {n k : Nat} (he : Extends n h h') (hk : n ≤ k) : Extends k h h' :=
  ⟨he.inv, he.read, he.pages.trans (Nat.add_le_add_left hk _)⟩

theorem alloc_extends (hi : h.Inv) (hs : h.pages.size < maxPages) (obj : α) :
    ∃ v h', alloc obj h = .ok v h' ∧ v.isRef = true ∧ h'.read v.toRef = .ok obj ∧ Extends 1 h h' := by
  rcases alloc_cases hi obj with ⟨v, h', hrun, hv, hp, hread⟩ | ⟨hmax, -⟩
  · refine ⟨v, h', hrun, hv, hread, hp.inv, fun r o => hp.read_other, ?_⟩
    have := pages_alloc h obj
    rwa [after_of_ok hrun] at this
  · exact absurd hmax (Nat.not_le.2 hs)

end RubyMachine.Heap
