import RubyMachine.Proofs.Heap.Use

/-! The pages that a sweep keeps. A page stays in use if something on it is marked. Of the others only the first page can
stay, and it does so if nothing at all is marked; where it was given up before, a sweep leaves no page in use. -/

namespace RubyMachine.Heap

variable {α : Type} {h h' h₁ : Heap α} {refs : α → List Value} {freed freed₁ : List α} {n p q kept : Nat}

/-- Something on the page is marked. -/
def HasMark (h : Heap α) (p : Nat) : Prop := ∃ c, (h.cellAt p c).marked = true

/-! ## One page -/

theorem Core.used_pos_of_mark (hi : h.Core) (hm : h.HasMark p) : 0 < (h.pageAt p).used := by
  obtain ⟨c, hc⟩ := hm
  exact Nat.zero_lt_of_lt ((hi.page p).lt_used_of_obj ((hi.page p).marked c hc))

/-- The objects that a sweep of the page leaves are the marked ones. -/
theorem SweptCells.isSome_obj (hi : h.Core) (hs : SweptCells p (List.range (h.pageAt p).used) h h₁) (c : Nat) :
    (h₁.cellAt p c).obj.isSome = (h.cellAt p c).marked := by
  have hmark : (h.cellAt p c).obj = none → (h.cellAt p c).marked = false := (hi.page p).not_marked
  rw [hs.cell]
  split_ifs with hc
  · rw [Cell.swept, Cell.isDoomed]
    cases ho : (h.cellAt p c).obj with
    | none => simp [ho, hmark ho]
    | some obj => cases hk : (h.cellAt p c).marked <;> simp [ho, Cell.freed]
  · have hle : (h.pageAt p).used ≤ c := by simpa using hc
    have ho : (h.cellAt p c).obj = none := ((hi.page p).fresh c hle).1
    rw [ho, hmark ho]
    rfl

theorem SweptCells.live_eq_zero_iff (hi : h.Core) (hs : SweptCells p (List.range (h.pageAt p).used) h h₁) :
    (h₁.pageAt p).live = 0 ↔ ¬ h.HasMark p := by
  rw [(hs.core.page p).live, Page.count_eq_zero, HasMark, not_exists]
  refine ⟨fun hn c hc => ?_, fun hn c _ => ?_⟩
  · have hobj := hs.isSome_obj hi c
    rw [hc] at hobj
    exact absurd (hn c (hs.core.in_range hobj).2) (ne_true_of_eq_false · hobj)
  · rw [← cellAt_eq, hs.isSome_obj hi]
    exact Bool.eq_false_iff.2 (hn c)

theorem SweptCells.hasMark_iff {l : List Nat} (hs : SweptCells p l h h₁) (q : Nat) : h₁.HasMark q ↔ h.HasMark q := by
  refine exists_congr fun c => ?_
  rw [hs.cell]
  split_ifs
  · rw [marked_swept]
  · rfl

theorem Relinked.hasMark_iff (hr : Relinked h h') (q : Nat) : h'.HasMark q ↔ h.HasMark q :=
  exists_congr fun c => by rw [hr.cell]

theorem hasMark_releasePage (hp : p < h.pages.size) (hq : q ≠ p) : (h.releasePage p).HasMark q ↔ h.HasMark q := by
  refine exists_congr fun c => ?_
  rw [cellAt_eq, cellAt_eq, pageAt_releasePage hp, if_neg hq]

/-! ## All pages -/

/-- Other pages are as they were. The page is not in use any more when nothing is marked on it, unless it is the first
one and no other stays. -/
theorem SweepsPage.pages {kept' : Nat} (hi : h.Core) (hp : SweepsPage n kept h kept' h₁) :
    (∀ q ≠ n, (h₁.pageAt q).used = (h.pageAt q).used ∧ (h₁.HasMark q ↔ h.HasMark q)) ∧
    (kept' = kept ∧ (h₁.pageAt n).used = 0 ∧ ¬ h.HasMark n ∧ (n = 0 → 0 < (h.pageAt 0).used → kept ≠ 0) ∨
      kept' = kept + 1 ∧ (h₁.pageAt n).used = (h.pageAt n).used ∧ 0 < (h.pageAt n).used ∧
        (h.HasMark n ∨ n = 0 ∧ kept = 0)) := by
  cases hp with
  | unused hu =>
    refine ⟨fun q _ => ⟨rfl, .rfl⟩, .inl ⟨rfl, hu, fun hm => (hi.used_pos_of_mark hm).ne' hu, ?_⟩⟩
    rintro rfl hused
    omega
  | @released h₂ hs hu hl hgo =>
    have hpage := pageAt_releasePage (lt_size_of_used hu)
    refine ⟨fun q hq => ⟨?_, ?_⟩, .inl ⟨rfl, ?_, (hs.live_eq_zero_iff hi).1 hl, by omega⟩⟩
    · rw [hpage, if_neg hq, hs.used]
    · rw [hasMark_releasePage (lt_size_of_used hu) hq, hs.hasMark_iff]
    · rw [hpage, if_pos rfl]
      rfl
  | @stays h₂ hs hu hgo =>
    have hr := linkFree_relinked hs.core n (List.range (h.pageAt n).used).reverse
    have hused (q : Nat) := (hr.used q).trans (hs.used q)
    refine ⟨fun q _ => ⟨hused q, (hr.hasMark_iff q).trans (hs.hasMark_iff q)⟩, .inr ⟨rfl, hused n, hu, ?_⟩⟩
    by_contra hno
    rw [not_or] at hno
    exact hgo ⟨(hs.live_eq_zero_iff hi).2 hno.1, by omega⟩

/-- By induction on the pages left; `kept` says whether a later page stays. The pages done with are left as they are. -/
theorem sweepPages_used (hi : h.Core) (hrun : sweepPages n kept h = .ok freed h') :
    (∀ q, n ≤ q → (h'.pageAt q).used = (h.pageAt q).used) ∧
    ∀ q < n, 0 < (h'.pageAt q).used ↔
      h.HasMark q ∨ q = 0 ∧ 0 < (h.pageAt 0).used ∧ kept = 0 ∧ ∀ r < n, ¬ h.HasMark r := by
  induction n generalizing kept h freed with
  | zero =>
    cases hrun
    exact ⟨fun _ _ => rfl, fun q hq => absurd hq (Nat.not_lt_zero q)⟩
  | succ n ih =>
    obtain ⟨kept', h₁, freed₁, hp, hi₁, hrun⟩ := exists_of_sweepPages hi hrun
    obtain ⟨hlater, hpages⟩ := ih hi₁ hrun
    obtain ⟨hother, hlast⟩ := hp.pages hi
    refine ⟨fun q hq => (hlater q (by omega)).trans (hother q (by omega)).1, fun q hq => ?_⟩
    rcases hlast with ⟨rfl, hu, hn, hfirst⟩ | ⟨rfl, hu, hpos, hstays⟩
    · rcases Nat.lt_succ_iff_lt_or_eq.1 hq with hq | rfl
      · have hall : (∀ r < n, ¬ h₁.HasMark r) ↔ ∀ r < n + 1, ¬ h.HasMark r := by
          rw [Nat.forall_lt_succ_right, and_iff_left hn]
          exact forall₂_congr fun r hr => not_congr (hother r hr.ne).2
        rw [hpages q hq, (hother q hq.ne).2, (hother 0 (by omega)).1, hall]
      · rw [hlater q le_rfl, hu]
        refine iff_of_false (Nat.lt_irrefl 0) ?_
        rintro (hm | ⟨h0, hused, hkept, -⟩)
        · exact hn hm
        · exact hfirst h0 hused hkept
    · -- the page stays
      rcases Nat.lt_succ_iff_lt_or_eq.1 hq with hq | rfl
      · have hn : h.HasMark n := hstays.resolve_right fun h0 => by omega
        rw [hpages q hq, (hother q hq.ne).2]
        exact or_congr_right (iff_of_false (fun h0 => Nat.succ_ne_zero _ h0.2.2.1) fun h0 => h0.2.2.2 n n.lt_succ_self hn)
      · rw [hlater q le_rfl, hu]
        refine iff_of_true hpos ((em (h.HasMark q)).imp_right fun hn => ?_)
        obtain ⟨rfl, rfl⟩ := hstays.resolve_left hn
        exact ⟨rfl, hpos, rfl, fun r hr => by rwa [Nat.lt_one_iff.1 hr]⟩

/-- The pages in use after a sweep. -/
theorem sweep_used (hi : h.Core) (hrun : sweep h = .ok freed h') (p : Nat) : 0 < (h'.pageAt p).used ↔
    h.HasMark p ∨ p = 0 ∧ 0 < (h.pageAt 0).used ∧ ∀ q, ¬ h.HasMark q := by
  obtain ⟨h₁, hpages, rfl⟩ := exists_of_sweep hrun
  obtain ⟨hlater, hused⟩ := sweepPages_used hi.forgetFree hpages
  have hsize {q : Nat} (hm : h.HasMark q) : q < h.pages.size := lt_size_of_used (hi.used_pos_of_mark hm)
  have hall : (∀ q < h.pages.size, ¬ h.HasMark q) ↔ ∀ q, ¬ h.HasMark q :=
    ⟨fun hn q hm => hn q (hsize hm) hm, fun hn q _ => hn q⟩
  rcases Nat.lt_or_ge p h.pages.size with hp | hp
  · refine (hused p hp).trans (or_congr_right (and_congr_right fun _ => and_congr_right fun _ => ?_))
    exact (and_iff_right rfl).trans hall
  · have hnone : (h.pageAt p).used = 0 := by rw [pageAt_of_le hp]
    have hp' := (hlater p hp).trans hnone
    refine iff_of_false (fun h0 => h0.ne' hp') ?_
    rintro (hm | ⟨rfl, hpos, -⟩)
    · exact absurd (hsize hm) (Nat.not_lt.2 hp)
    · exact hpos.ne' hnone

theorem Core.pages_pos_iff (hi : h.Core) : 0 < h.stats.pages ↔ ∃ p, 0 < (h.pageAt p).used := by
  have hcount : 0 < h.stats.pages ↔ h.freePages.length < h.pages.size := by
    show (0 : Int) < h.pages.size - h.freePages.length ↔ _
    omega
  rw [hcount]
  constructor
  · intro hlt
    by_contra hnone
    have hsub : List.range h.pages.size ⊆ h.freePages := fun p hp =>
      (hi.mem_freePages p).2 ⟨List.mem_range.1 hp, Nat.eq_zero_of_not_pos fun h0 => hnone ⟨p, h0⟩⟩
    have hle := (List.nodup_range.subperm hsub).length_le
    rw [List.length_range] at hle
    omega
  · rintro ⟨p, hp⟩
    have hnot : p ∉ h.freePages := fun hm => hp.ne' ((hi.mem_freePages p).1 hm).2
    have hsub : p :: h.freePages ⊆ List.range h.pages.size := by
      refine List.cons_subset.2 ⟨List.mem_range.2 (lt_size_of_used hp), fun q hq => ?_⟩
      exact List.mem_range.2 ((hi.mem_freePages q).1 hq).1
    have hle := ((List.nodup_cons.2 ⟨hnot, hi.nodup_freePages⟩).subperm hsub).length_le
    rwa [List.length_range] at hle

theorem Core.markCount_pos_iff (hi : h.Core) : 0 < h.markCount ↔ ∃ p, h.HasMark p := by
  rw [hi.marks, total, Finset.sum_pos_iff]
  refine exists_congr fun p => ?_
  rw [Page.count, List.countP_pos_iff]
  constructor
  · rintro ⟨-, c, -, hc⟩
    exact ⟨c, hc⟩
  · rintro ⟨c, hc⟩
    obtain ⟨hp, hlt⟩ := hi.in_range ((hi.page p).marked c hc)
    exact ⟨Finset.mem_range.2 hp, c, List.mem_range.2 hlt, hc⟩

/-- A sweep leaves a page in use if something is marked, or else if the first page is in use. -/
theorem sweep_keeps_iff (hu : InUse refs n h) (hrun : sweep h = .ok freed h') :
    0 < h'.stats.pages ↔ 0 < h.markCount ∨ 0 < (h.pageAt 0).used := by
  have hi : h.Core := hu.balanced.inv.toCore
  have hi' : h'.Core := (hu.sweep hrun).balanced.inv.toCore
  rw [hi'.pages_pos_iff, hi.markCount_pos_iff]
  simp only [sweep_used hi hrun]
  constructor
  · rintro ⟨p, hm | ⟨-, h0, -⟩⟩
    · exact .inl ⟨p, hm⟩
    · exact .inr h0
  · rintro (⟨p, hm⟩ | h0)
    · exact ⟨p, .inl hm⟩
    · by_cases hall : ∃ p, h.HasMark p
      · obtain ⟨p, hm⟩ := hall
        exact ⟨p, .inl hm⟩
      · exact ⟨0, .inr ⟨rfl, h0, not_exists.1 hall⟩⟩

end RubyMachine.Heap
