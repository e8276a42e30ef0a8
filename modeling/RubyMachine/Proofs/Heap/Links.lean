import RubyMachine.Proofs.Heap.Pages
import RubyMachine.Proofs.Heap.Room

/-! How far links reach. A link has 32 bits, one of them for the sign, and there can be more cells than that: after a sweep
the free list holds just those free cells whose number fits (`sweep_links`), which is not all of them on a heap that has
grown beyond (`sweep_incomplete`). -/

namespace RubyMachine.Heap

variable {α : Type} {h h' h₁ : Heap α} {freed : List α} {l : List (Nat × Nat)} {j k n p q c d kept : Nat}

/-- A link names its cell if and only if the number of the cell fits in. -/
theorem linkTo_iff (hp : p < maxPages) (hc : c < pageCells) :
    0 ≤ linkTo p c ∧ splitLink (linkTo p c) = (p, c) ↔ p * pageCells + c < 2 ^ 31 := by
  rcases linkTo_cases hp hc with ⟨hlt, h0, hsplit⟩ | ⟨hge, hneg⟩
  · exact iff_of_true ⟨h0, hsplit⟩ hlt
  · exact iff_of_false (fun hn => Int32.not_lt.2 hn.1 hneg) (Nat.not_lt.2 hge)

/-- The free cells from number `k` on, as far as links reach, are the free list, in the order of their numbers. -/
structure Threaded (h : Heap α) (k : Nat) (l : List (Nat × Nat)) : Prop where
  chain : Chain h.next h.freeHead l
  mem : ∀ p c, (p, c) ∈ l ↔ ((h.cellAt p c).free = true ∧ k ≤ p * pageCells + c) ∧ p * pageCells + c < 2 ^ 31
  sorted : l.Pairwise fun x y => x.1 * pageCells + x.2 < y.1 * pageCells + y.2

theorem Core.lt_cells_of_free (hi : h.Core) (hf : (h.cellAt p c).free = true) : c < pageCells :=
  ((hi.page p).lt_used_of_free hf).trans_le (hi.page p).used_le

theorem number_inj (hc : c < pageCells) (hd : d < pageCells) :
    q * pageCells + d = p * pageCells + c ↔ q = p ∧ d = c := by
  unfold pageCells at *
  omega

namespace Threaded

/-- Other links do not matter, nor does another start, as long as the free cells from there on are the same. -/
theorem of_same (ht : Threaded h k l) (hhead : h'.freeHead = h.freeHead)
    (hnext : ∀ p c, (p, c) ∈ l → (h'.cellAt p c).next = (h.cellAt p c).next)
    (hfree : ∀ p c, (h'.cellAt p c).free = true ∧ j ≤ p * pageCells + c ↔
      (h.cellAt p c).free = true ∧ k ≤ p * pageCells + c) : Threaded h' j l where
  chain := hhead ▸ ht.chain.congr fun x hx => hnext x.1 x.2 hx
  mem p c := by rw [hfree, ht.mem]
  sorted := ht.sorted

/-- The free cell just below is put in front. If there is no link to it there is none to any of the later ones either. -/
theorem pushFree (hi : h.Core) (ht : Threaded h (p * pageCells + c + 1) l) (hf : (h.cellAt p c).free = true) :
    ∃ l', Threaded (h.pushFree p c) (p * pageCells + c) l' := by
  have hp : p < h.pages.size := lt_size_of_used (Nat.zero_lt_of_lt ((hi.page p).lt_used_of_free hf))
  have hc := hi.lt_cells_of_free hf
  have hcell := cellAt_pushFree hp c
  have hfree (q d : Nat) : ((h.pushFree p c).cellAt q d).free = (h.cellAt q d).free := by
    rw [hcell]
    split_ifs with hq
    · rw [hq.1, hq.2]
    · rfl
  rcases linkTo_cases (hp.trans_le hi.size_le) hc with ⟨hlt, h0, hsplit⟩ | ⟨hge, hneg⟩
  · have hlater (x : Nat × Nat) (hx : x ∈ l) : p * pageCells + c < x.1 * pageCells + x.2 := ((ht.mem x.1 x.2).1 hx).1.2
    refine ⟨(p, c) :: l, ?_, fun q d => ?_, List.pairwise_cons.2 ⟨hlater, ht.sorted⟩⟩
    · show Chain _ (linkTo p c) _
      rw [← hsplit]
      refine .cell h0 ?_
      rw [hsplit, Heap.next, hcell, if_pos ⟨rfl, rfl⟩]
      refine ht.chain.congr fun x hx => ?_
      have := hlater x hx
      rw [Heap.next, hcell, if_neg (by rintro ⟨h1, h2⟩; rw [h1, h2] at this; omega), Heap.next]
    · rw [List.mem_cons, ht.mem, hfree]
      constructor
      · rintro (he | ⟨⟨hd, hle⟩, hfits⟩)
        · obtain ⟨rfl, rfl⟩ := Prod.mk.inj he
          exact ⟨⟨hf, le_rfl⟩, hlt⟩
        · exact ⟨⟨hd, by omega⟩, hfits⟩
      · rintro ⟨⟨hd, hle⟩, hfits⟩
        by_cases he : q * pageCells + d = p * pageCells + c
        · obtain ⟨rfl, rfl⟩ := (number_inj hc (hi.lt_cells_of_free hd)).1 he
          exact .inl rfl
        · exact .inr ⟨⟨hd, by omega⟩, hfits⟩
  · refine ⟨[], .done hneg, fun q d => iff_of_false List.not_mem_nil ?_, .nil⟩
    rintro ⟨⟨-, hle⟩, hlt⟩
    omega

/-- All free cells of a page are put in front, the last one first. -/
theorem linkFree (hi : h.Core) (ht : Threaded h (p * pageCells + n) l) (hn : n ≤ pageCells) :
    ∃ l', Threaded (linkFree p (List.range n).reverse h) (p * pageCells) l' := by
  induction n generalizing h l with
  | zero => exact ⟨l, by rwa [Nat.add_zero] at ht⟩
  | succ n ih =>
    rw [← Nat.add_assoc] at ht
    rw [List.range_succ, List.reverse_concat]
    by_cases hf : (h.cellAt p n).free = true
    · rw [linkFree_free hf]
      obtain ⟨l', ht'⟩ := ht.pushFree hi hf
      exact ih (relinked_pushFree hi hf).core ht' (by omega)
    · rw [linkFree_taken hf]
      refine ih hi (ht.of_same rfl (fun _ _ _ => rfl) fun q d => and_congr_right fun hd => ?_) (by omega)
      have hne : q * pageCells + d ≠ p * pageCells + n := fun he => by
        obtain ⟨rfl, rfl⟩ := (number_inj (show n < pageCells by omega) (hi.lt_cells_of_free hd)).1 he
        exact hf hd
      omega

/-- Cells that were never handed out are passed over. -/
theorem skip (hi : h.Core) (ht : Threaded h ((p + 1) * pageCells) l) (hused : (h.pageAt p).used ≤ n)
    (hn : n ≤ pageCells) : Threaded h (p * pageCells + n) l := by
  refine ht.of_same rfl (fun _ _ _ => rfl) fun q d => and_congr_right fun hd => ?_
  have hd' := hi.lt_cells_of_free hd
  have hu := (hi.page q).lt_used_of_free hd
  by_cases hq : q = p
  · subst hq
    rw [Nat.succ_mul]
    omega
  · unfold pageCells at *
    omega

theorem skipPage (hi : h.Core) (ht : Threaded h ((p + 1) * pageCells) l) (hused : (h.pageAt p).used = 0) :
    Threaded h (p * pageCells) l := by
  rw [← Nat.add_zero (p * pageCells)]
  exact ht.skip hi hused.le (Nat.zero_le _)

/-- What happens to earlier pages does not matter. -/
theorem of_pages (hi : h.Core) (hi' : h'.Core) (ht : Threaded h (n * pageCells) l) (hhead : h'.freeHead = h.freeHead)
    (hcell : ∀ q d, n ≤ q → h'.cellAt q d = h.cellAt q d) : Threaded h' (n * pageCells) l := by
  have hpage {q d : Nat} (hd : d < pageCells) (hle : n * pageCells ≤ q * pageCells + d) : n ≤ q := by
    unfold pageCells at *
    omega
  refine ht.of_same hhead (fun q d hx => ?_) fun q d => ⟨fun ⟨hf, hle⟩ => ?_, fun ⟨hf, hle⟩ => ?_⟩
  · obtain ⟨⟨hf, hle⟩, -⟩ := (ht.mem q d).1 hx
    rw [hcell q d (hpage (hi.lt_cells_of_free hf) hle)]
  · rw [← hcell q d (hpage (hi'.lt_cells_of_free hf) hle)]
    exact ⟨hf, hle⟩
  · rw [hcell q d (hpage (hi.lt_cells_of_free hf) hle)]
    exact ⟨hf, hle⟩

end Threaded

/-! ## Sweeps -/

theorem Threaded.sweepsPage {kept' : Nat} (hi : h.Core) (ht : Threaded h ((n + 1) * pageCells) l)
    (hp : SweepsPage n kept h kept' h₁) : ∃ l', Threaded h₁ (n * pageCells) l' := by
  have swept {h₂ : Heap α} (hs : SweptCells n (List.range (h.pageAt n).used) h h₂) :
      Threaded h₂ ((n + 1) * pageCells) l := ht.of_pages hi hs.core (by rw [hs.rest]) fun q d hq => by
    rw [hs.cell, if_neg (by omega)]
  cases hp with
  | unused hu => exact ⟨l, ht.skipPage hi hu⟩
  | @released h₂ hs hu hl _ =>
    have hpage := pageAt_releasePage (lt_size_of_used hu)
    have hi' := hs.core.releasePage hu hl
    have ht' : Threaded (h₂.releasePage n) ((n + 1) * pageCells) l := (swept hs).of_pages hs.core hi' rfl fun q d hq => by
      rw [cellAt_eq, hpage, if_neg (by omega), cellAt_eq]
    refine ⟨l, ht'.skipPage hi' ?_⟩
    rw [hpage, if_pos rfl]
    rfl
  | @stays h₂ hs _ _ => exact ((swept hs).skip hs.core (hs.used n).le (hi.page n).used_le).linkFree hs.core (hi.page n).used_le

/-- By induction on the pages left. The pages done with are threaded. -/
theorem sweepPages_threaded (hi : h.Core) (hrun : sweepPages n kept h = .ok freed h')
    (ht : Threaded h (n * pageCells) l) : ∃ l', Threaded h' 0 l' := by
  induction n generalizing kept h freed l with
  | zero =>
    cases hrun
    exact ⟨l, by rwa [Nat.zero_mul] at ht⟩
  | succ n ih =>
    obtain ⟨kept', h₁, freed₁, hp, hi₁, hrun⟩ := exists_of_sweepPages hi hrun
    obtain ⟨l', ht'⟩ := ht.sweepsPage hi hp
    exact ih hi₁ hrun ht'

/-- After a sweep the free list holds the free cells whose number fits in a link, in the order of their numbers. -/
theorem sweep_links (hi : h.Core) (hrun : sweep h = .ok freed h') : ∃ l, Chain h'.next h'.freeHead l ∧
    (l.Pairwise fun x y => x.1 * pageCells + x.2 < y.1 * pageCells + y.2) ∧
    ∀ p c, (p, c) ∈ l ↔ (h'.cellAt p c).free = true ∧ p * pageCells + c < 2 ^ 31 := by
  obtain ⟨h₁, hpages, rfl⟩ := exists_of_sweep hrun
  have ht₀ : Threaded h.forgetFree (h.pages.size * pageCells) [] := by
    refine ⟨.done (show (-1 : Int32) < 0 by decide), fun p c => iff_of_false List.not_mem_nil ?_, .nil⟩
    rintro ⟨⟨hf, hle⟩, -⟩
    have hc := hi.lt_cells_of_free hf
    have hp := lt_size_of_used (Nat.zero_lt_of_lt ((hi.page p).lt_used_of_free hf))
    unfold pageCells at *
    omega
  obtain ⟨l, ht⟩ := sweepPages_threaded hi.forgetFree hpages ht₀
  refine ⟨l, ht.chain, ht.sorted, fun p c => (ht.mem p c).trans ?_⟩
  rw [and_iff_left (Nat.zero_le _)]
  exact .rfl

/-! ## A heap that has grown -/

/-- Empty pages come from sweeps only. -/
theorem freePages_bumpPage (hf : h.freePages = []) : (after bumpPage h).freePages = [] := by
  have hnext : (after bumpPage.next h).freePages = [] := by
    unfold bumpPage.next after
    simp only [bind_apply, get_apply, hf]
    split_ifs
    · exact hf
    · exact hf
  unfold after
  rw [bumpPage_eq]
  cases h.current with
  | none => exact hnext
  | some p =>
    rw [Option.elim_some]
    split_ifs
    · exact hf
    · exact hnext

theorem freePages_alloc (hf : h.freePages = []) (obj : α) : (after (alloc obj) h).freePages = [] := by
  have hcount : h.countAllocation.freePages = [] := by
    unfold countAllocation
    split_ifs <;> exact hf
  refine after_bind (P := fun t : Heap α => t.freePages = []) hcount fun _ _ hmodify => ?_
  cases hmodify
  refine after_bind (P := fun t : Heap α => t.freePages = []) hcount fun _ _ hget => ?_
  cases hget
  have hplace (x : Nat × Nat) (t : Heap α) (ht : t.freePages = []) : (after (do
      let gen := ((← get).cellAt x.1 x.2).gen
      modify fun h => h.fillCell x.1 x.2 obj
      return Value.ofRef (.make (UInt64.ofNat x.1) (UInt64.ofNat x.2) gen) : HeapM α Value) t).freePages = [] := ht
  have hbump := freePages_bumpPage hcount
  have hfresh : (after takeFresh h.countAllocation).freePages = [] := by
    refine after_bind (P := fun t : Heap α => t.freePages = []) hbump fun p t hp => ?_
    rw [after_of_ok hp] at hbump
    exact hbump
  have hfree : (after takeFree h.countAllocation).freePages = [] := by
    unfold takeFree after
    simp only [bind_apply, get_apply]
    split_ifs <;> exact hcount
  dsimp only
  split
  · refine after_bind (P := fun t : Heap α => t.freePages = []) hfree fun x t hx => hplace x t ?_
    rwa [after_of_ok hx] at hfree
  · refine after_bind (P := fun t : Heap α => t.freePages = []) hfresh fun x t hx => hplace x t ?_
    rwa [after_of_ok hx] at hfresh

/-- Objects were placed on the heap, and nothing else was done. -/
structure Grown (h : Heap α) : Prop where
  inUse : InUse (fun _ => []) 0 h
  freePages : h.freePages = []
  free : ∀ p c, (h.cellAt p c).free = false
  marked : ∀ p c, (h.cellAt p c).marked = false

namespace Grown

theorem core (hg : Grown h) : h.Core := hg.inUse.balanced.inv.toCore

theorem new (threshold : Int) (debug : Bool) : Grown (new threshold debug : Heap α) :=
  have hcell (p c : Nat) : (Heap.new threshold debug : Heap α).cellAt p c = {} := by
    rw [cellAt_eq, pageAt_of_le (Nat.zero_le p), Page.cellAt_empty]
  ⟨.new threshold debug, rfl, fun p c => by rw [hcell], fun p c => by rw [hcell]⟩

theorem alloc (hg : Grown h) (obj : α) : Grown (after (alloc obj) h) := by
  have hcell (p c : Nat) : ((after (Heap.alloc obj) h).cellAt p c).free = false ∧
      ((after (Heap.alloc obj) h).cellAt p c).marked = false := by
    rcases alloc_spec hg.inUse.balanced.inv obj with ⟨q, d, h', hrun, hp⟩ | ⟨-, hrun⟩
    · rw [after_of_ok hrun, hp.cell]
      split_ifs
      · exact ⟨rfl, hg.marked q d⟩
      · exact ⟨hg.free p c, hg.marked p c⟩
    · rw [after_of_error hrun, cellAt, countAllocation_pages]
      exact ⟨hg.free p c, hg.marked p c⟩
  exact ⟨hg.inUse.alloc obj, freePages_alloc hg.freePages obj, fun p c => (hcell p c).1, fun p c => (hcell p c).2⟩

theorem used_pos (hg : Grown h) (hp : p < h.pages.size) : 0 < (h.pageAt p).used := by
  by_contra hu
  have hmem := (hg.core.mem_freePages p).2 ⟨hp, Nat.eq_zero_of_not_pos hu⟩
  rw [hg.freePages] at hmem
  cases hmem

theorem isSome_obj (hg : Grown h) (hc : c < (h.pageAt p).used) : (h.cellAt p c).obj.isSome = true := by
  have htaken : (h.cellAt p c).free = (h.cellAt p c).obj.isNone := (hg.core.page p).taken c hc
  rw [← Option.not_isNone, ← htaken, hg.free]
  rfl

end Grown

theorem Core.live_le (hi : h.Core) : h.live ≤ h.pages.size * pageCells := by
  rw [hi.live_eq, total]
  refine (Finset.sum_le_card_nsmul _ _ pageCells fun p _ => ?_).trans_eq ?_
  · exact (List.countP_le_length).trans_eq List.length_range
  · rw [Finset.card_range, smul_eq_mul]

/-- There are heaps of any size that references can name. -/
theorem exists_grown (obj : α) (hn : n ≤ maxPages) : ∃ h : Heap α, Grown h ∧ n ≤ h.pages.size := by
  have hlive (k : Nat) : ∃ h : Heap α, Grown h ∧ (k ≤ h.live ∨ maxPages ≤ h.pages.size) := by
    induction k with
    | zero => exact ⟨_, .new 0 false, .inl (Nat.zero_le _)⟩
    | succ k ih =>
      obtain ⟨h, hg, hk⟩ := ih
      refine ⟨_, hg.alloc obj, ?_⟩
      rcases alloc_spec hg.inUse.balanced.inv obj with ⟨p, c, h', hrun, hp⟩ | ⟨hmax, hrun⟩
      · rw [after_of_ok hrun, hp.live]
        exact hk.imp Nat.succ_le_succ fun hmax => hmax.trans hp.size
      · rw [after_of_error hrun, countAllocation_pages]
        exact .inr hmax
  obtain ⟨h, hg, hk⟩ := hlive (n * pageCells)
  refine ⟨h, hg, ?_⟩
  rcases hk with hk | hmax
  · exact Nat.le_of_mul_le_mul_right (hk.trans hg.core.live_le) (by decide)
  · exact hn.trans hmax

/-- Of two pages in use one is full. -/
theorem Core.full_of_ne (hi : h.Core) (hp : 0 < (h.pageAt p).used) (hq : 0 < (h.pageAt q).used) (hne : p ≠ q) :
    (h.pageAt p).used = pageCells ∨ (h.pageAt q).used = pageCells := by
  by_contra hno
  rw [not_or] at hno
  have hcp := hi.filling p hp (lt_of_le_of_ne (hi.page p).used_le hno.1)
  have hcq := hi.filling q hq (lt_of_le_of_ne (hi.page q).used_le hno.2)
  exact hne (Option.some.inj (hcp.symm.trans hcq))

theorem markRef_leaf {refs : α → List Value} {r : Ref} {obj : α} (hr : h.read r = .ok obj)
    (hm : (h.cellAt r.page r.cell).marked = false) (hrefs : refs obj = []) :
    markRef refs r h = .ok false (h.setMark r.page r.cell) := by
  have hvisit := visit_of_read hr
  rw [hm, if_neg (by decide)] at hvisit
  have hnone (t : Heap α) : markValues refs [] t = .ok () t := by
    rw [markValues, bind_apply, get_apply]
    simp only [markAll, pure_apply]
  rw [markRef, bind_of_ok hvisit]
  dsimp only
  rw [hrefs, bind_of_ok (hnone _)]
  rfl

/-- If nothing but the last cell of a full page is marked, the page is kept and its other cells are free. -/
theorem Grown.sweep_last (hg : Grown h) (hp : p < h.pages.size) (hfull : (h.pageAt p).used = pageCells) :
    ∃ (h₁ h' : Heap α) (freed : List α), InUse (fun _ => []) 0 h₁ ∧ sweep h₁ = .ok freed h' ∧
      (h'.pageAt p).used = pageCells ∧ ∀ c < 4031, (h'.cellAt p c).free = true := by
  obtain ⟨obj, hobj⟩ := Option.isSome_iff_exists.1 (hg.isSome_obj (show 4031 < (h.pageAt p).used by rw [hfull]; decide))
  let r := Ref.make (UInt64.ofNat p) (UInt64.ofNat 4031) (h.cellAt p 4031).gen
  have hmax := hp.trans_le hg.core.size_le
  have hpage : r.page = p := Ref.page_make hmax (by decide) _
  have hlast : r.cell = 4031 := Ref.cell_make hmax (by decide) _
  have hread : h.read r = .ok obj := by
    rw [read_eq_ok, hpage, hlast]
    exact ⟨hp, by decide, hg.free p 4031, hobj, (Ref.gen_make hmax (by decide) _).symm⟩
  have hrun : markRef (fun _ => []) r h = .ok false (h.setMark r.page r.cell) := markRef_leaf hread (hg.marked _ _) rfl
  rw [hpage, hlast] at hrun
  have hu := hg.inUse.markRef r
  rw [after_of_ok hrun] at hu
  obtain ⟨freed, h', hsweep, hs, -⟩ := sweep_spec hu.balanced.inv.toCore
  have hcell := cellAt_setMark hp 4031
  have hpg := hs.inv.page p
  have hkept : (h'.cellAt p 4031).obj.isSome = true := by
    rw [hs.obj, hcell, if_pos ⟨rfl, rfl⟩, Cell.swept, if_neg (by simp [Cell.isDoomed])]
    exact hobj ▸ rfl
  have hused := hpg.lt_used_of_obj hkept
  refine ⟨_, h', freed, hu, hsweep, ?_, fun c hc => ?_⟩
  · exact le_antisymm hpg.used_le hused
  · have hdoomed : (h.cellAt p c).isDoomed = true := by
      rw [Cell.isDoomed, hg.isSome_obj (by rw [hfull]; exact hc.trans (by decide)), hg.marked]
      rfl
    have htaken : (h'.cellAt p c).free = (h'.cellAt p c).obj.isNone := hpg.taken c (hc.trans hused)
    rw [htaken, hs.obj, hcell, if_neg (by omega), Cell.swept, if_pos hdoomed]
    rfl

/-- On a large heap a sweep leaves free cells on a page that is kept without a link to them. -/
theorem sweep_incomplete : ∃ (h h' : Heap Unit) (freed : List Unit) (p c : Nat), InUse (fun _ => []) 0 h ∧
    sweep h = .ok freed h' ∧ 0 < (h'.pageAt p).used ∧ (h'.cellAt p c).free = true ∧ linkTo p c < 0 ∧
    ∀ l, Chain h'.next h'.freeHead l → (p, c) ∉ l := by
  obtain ⟨h, hg, hsize⟩ := exists_grown () (show 532612 ≤ maxPages by decide)
  -- The number of the 129th cell of this page, and of every later cell, is too large.
  obtain ⟨p, hfirst, hp, hfull⟩ : ∃ p, 532610 ≤ p ∧ p < h.pages.size ∧ (h.pageAt p).used = pageCells := by
    rcases hg.core.full_of_ne (hg.used_pos (show 532610 < h.pages.size by omega))
      (hg.used_pos (show 532611 < h.pages.size by omega)) (by decide) with hfull | hfull
    · exact ⟨532610, le_rfl, by omega, hfull⟩
    · exact ⟨532611, by decide, by omega, hfull⟩
  obtain ⟨h₁, h', freed, hu, hrun, hused, hfree⟩ := hg.sweep_last hp hfull
  have hbig : 2 ^ 31 ≤ p * pageCells + 128 := by
    unfold pageCells
    omega
  refine ⟨h₁, h', freed, p, 128, hu, hrun, hused ▸ by decide, hfree 128 (by decide), ?_, fun l hl hmem => ?_⟩
  · exact ((linkTo_cases (hp.trans_le hg.core.size_le) (by decide)).resolve_left fun hlt => by omega).2
  · obtain ⟨l', hl', -, hlinks⟩ := sweep_links hu.balanced.inv.toCore hrun
    rw [hl.unique hl', hlinks] at hmem
    omega

end RubyMachine.Heap
