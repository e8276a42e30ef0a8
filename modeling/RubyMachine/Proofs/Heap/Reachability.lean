import RubyMachine.Proofs.Heap.Marking

/-! What references reach, and that marking finds exactly this. -/

namespace RubyMachine.Heap

variable {α : Type} {h h' h'' : Heap α} {refs : α → List Value}

/-- The references that can be followed from some values on. `refs` gives the values in an object. -/
inductive Reaches (h : Heap α) (refs : α → List Value) (roots : List Value) : Ref → Prop where
  | root {v : Value} : v ∈ roots → v.isRef = true → Reaches h refs roots v.toRef
  | step {r : Ref} {obj : α} {v : Value} : Reaches h refs roots r → h.read r = .ok obj → v ∈ refs obj →
      v.isRef = true → Reaches h refs roots v.toRef

/-- Whether a reference to the cell can be reached. -/
def ReachesCell (h : Heap α) (refs : α → List Value) (roots : List Value) (p c : Nat) : Prop :=
  ∃ r, Reaches h refs roots r ∧ r.page = p ∧ r.cell = c

/-! ## Heaps that differ in marks only -/

theorem clearMarks_setMark {p c : Nat} (hobj : (h.cellAt p c).obj.isSome = true) :
    (h.setMark p c).clearMarks = h.clearMarks := by
  have hc : c < (h.pageAt p).cells.size := by
    by_contra hle
    rw [cellAt_eq, Page.cellAt_of_le (Nat.not_lt.1 hle)] at hobj
    cases hobj
  have hp : p < h.pages.size := by
    by_contra hle
    rw [pageAt_of_le (Nat.not_lt.1 hle)] at hc
    cases hc
  have hpages : (h.setMark p c).clearMarks.pages = h.clearMarks.pages := by
    apply Array.ext
    · simp [clearMarks, setMark, modifyCell]
    · intro i h1 h2
      have hi : i < h.pages.size := by simpa [clearMarks] using h2
      have hat : ∀ g : Heap α, ∀ hg : i < g.clearMarks.pages.size, g.clearMarks.pages[i] = g.clearMarks.pageAt i :=
        fun g hg => by simp [pageAt, Array.getD, hg]
      rw [hat _ h1, hat _ h2, pageAt_clearMarks, pageAt_clearMarks, pageAt_setMark hp]
      split_ifs with hip
      · subst hip
        simp only [Page.modifyCell, if_pos hc, Page.mk.injEq, and_true]
        apply Array.ext
        · simp
        · intro j h3 h4
          simp only [Array.getElem_map, Array.getElem_modify]
          split_ifs <;> rfl
      · rfl
  show ({ (h.setMark p c).clearMarks with pages := (h.setMark p c).clearMarks.pages } : Heap α) = _
  rw [hpages]
  rfl

theorem cellAt_of_clearMarks (hs : h'.clearMarks = h.clearMarks) (p c : Nat) :
    h'.cellAt p c = { h.cellAt p c with marked := (h'.cellAt p c).marked } := by
  have := congrArg (cellAt · p c) hs
  simp only [cellAt_clearMarks, Cell.mk.injEq, and_true] at this
  cases hx : h'.cellAt p c
  simp_all

theorem size_of_clearMarks (hs : h'.clearMarks = h.clearMarks) : h'.pages.size = h.pages.size := by
  have := congrArg (·.pages.size) hs
  simpa [clearMarks] using this

/-- References are read without regard to marks. -/
theorem read_of_clearMarks (hs : h'.clearMarks = h.clearMarks) (r : Ref) : h'.read r = h.read r := by
  have hc := cellAt_of_clearMarks hs r.page r.cell
  generalize (h'.cellAt r.page r.cell).marked = b at hc
  simp only [read, hc, size_of_clearMarks hs]

/-! ## What marking does -/

def IsMarked (h : Heap α) (p c : Nat) : Prop := (h.cellAt p c).marked = true

/-- The cell of a value that refers to one is marked. -/
def IsMarkedAt (h : Heap α) (v : Value) : Prop := v.isRef = true → h.IsMarked v.toRef.page v.toRef.cell

/-- A set of good references that nothing leads out of. -/
def Closed (h : Heap α) (refs : α → List Value) (S : Ref → Prop) : Prop :=
  ∀ r, S r → ∃ obj, h.read r = .ok obj ∧ ∀ v ∈ refs obj, v.isRef = true → S v.toRef

/-- `h'` is `h` after marking from the values `vs` on, inside of the references `S`. -/
structure MarkedFrom (refs : α → List Value) (S : Ref → Prop) (vs : List Value) (h h' : Heap α) : Prop where
  same : h'.clearMarks = h.clearMarks
  inv : h'.Inv
  mono : ∀ p c, h.IsMarked p c → h'.IsMarked p c
  sound : ∀ p c, h'.IsMarked p c → h.IsMarked p c ∨ ∃ r, S r ∧ r.page = p ∧ r.cell = c
  roots : ∀ v ∈ vs, h'.IsMarkedAt v
  closed : ∀ p c obj, h'.IsMarked p c → ¬ h.IsMarked p c → (h.cellAt p c).obj = some obj →
    ∀ v ∈ refs obj, h'.IsMarkedAt v

theorem Closed.of_clearMarks {S : Ref → Prop} (hS : Closed h refs S) (hs : h'.clearMarks = h.clearMarks) :
    Closed h' refs S := fun r hr => by
  rw [read_of_clearMarks hs]
  exact hS r hr

namespace MarkedFrom

variable {S : Ref → Prop} {vs ws : List Value}

theorem nil (hi : h.Inv) : MarkedFrom refs S [] h h :=
  ⟨rfl, hi, fun _ _ => id, fun _ _ => Or.inl, by simp, fun _ _ _ h1 h2 => absurd h1 h2⟩

theorem trans (h1 : MarkedFrom refs S vs h h') (h2 : MarkedFrom refs S ws h' h'') :
    MarkedFrom refs S (vs ++ ws) h h'' := by
  refine ⟨h2.same.trans h1.same, h2.inv, fun p c hm => h2.mono p c (h1.mono p c hm), fun p c hm => ?_,
    fun v hv hr => ?_, fun p c obj hm hn ho v hv hr => ?_⟩
  · rcases h2.sound p c hm with hm' | hS
    · exact h1.sound p c hm'
    · exact Or.inr hS
  · rcases List.mem_append.1 hv with hv | hv
    · exact h2.mono _ _ (h1.roots v hv hr)
    · exact h2.roots v hv hr
  · by_cases hm' : h'.IsMarked p c
    · exact h2.mono _ _ (h1.closed p c obj hm' hn ho v hv hr)
    · refine h2.closed p c obj hm hm' ?_ v hv hr
      rw [cellAt_of_clearMarks h1.same]
      exact ho

/-- A value that is no reference, or whose cell is marked already, is done with. -/
theorem cons_done {v : Value} (hv : h.IsMarkedAt v) (h1 : MarkedFrom refs S vs h h') :
    MarkedFrom refs S (v :: vs) h h' :=
  { h1 with
    roots := fun w hw => by
      rcases List.mem_cons.1 hw with rfl | hw
      · exact fun hr => h1.mono _ _ (hv hr)
      · exact h1.roots w hw }

/-- A cell is marked, then what its object and the other values lead to. -/
theorem cons_visit {v : Value} {obj : α} (hv : v.isRef = true) (hS : S v.toRef)
    (hr : h.read v.toRef = .ok obj)
    (h1 : MarkedFrom refs S (refs obj ++ vs) (h.setMark v.toRef.page v.toRef.cell) h') :
    MarkedFrom refs S (v :: vs) h h' := by
  obtain ⟨hp, hc, -, ho, -⟩ := read_eq_ok.1 hr
  have hcell := cellAt_setMark hp v.toRef.cell
  have hself : (h.setMark v.toRef.page v.toRef.cell).IsMarked v.toRef.page v.toRef.cell := by
    rw [IsMarked, hcell, if_pos ⟨rfl, rfl⟩]
  have hold : ∀ p c, h.IsMarked p c → (h.setMark v.toRef.page v.toRef.cell).IsMarked p c := by
    intro p c hm
    rw [IsMarked, hcell]
    split_ifs
    · rfl
    · exact hm
  have hnew : ∀ p c, (h.setMark v.toRef.page v.toRef.cell).IsMarked p c → ¬ h.IsMarked p c →
      p = v.toRef.page ∧ c = v.toRef.cell := by
    intro p c hm hn
    by_contra hne
    rw [IsMarked, hcell, if_neg hne] at hm
    exact hn hm
  have hobj : (h.cellAt v.toRef.page v.toRef.cell).obj.isSome = true := by rw [ho]; rfl
  refine ⟨h1.same.trans (clearMarks_setMark hobj), h1.inv, fun p c hm => h1.mono p c (hold p c hm),
    fun p c hm => ?_, fun w hw => ?_, fun p c obj' hm hn ho' w hw => ?_⟩
  · rcases h1.sound p c hm with hm' | hS'
    · by_cases hm : h.IsMarked p c
      · exact Or.inl hm
      · obtain ⟨rfl, rfl⟩ := hnew p c hm' hm
        exact Or.inr ⟨v.toRef, hS, rfl, rfl⟩
    · exact Or.inr hS'
  · rcases List.mem_cons.1 hw with rfl | hw
    · exact fun _ => h1.mono _ _ hself
    · exact h1.roots w (List.mem_append_right _ hw)
  · by_cases hm' : (h.setMark v.toRef.page v.toRef.cell).IsMarked p c
    · obtain ⟨rfl, rfl⟩ := hnew p c hm' hn
      rw [ho, Option.some.injEq] at ho'
      exact h1.roots w (List.mem_append_left _ (ho' ▸ hw))
    · refine h1.closed p c obj' hm hm' ?_ w hw
      rw [hcell, if_neg (by rintro ⟨rfl, rfl⟩; exact hm' hself)]
      exact ho'

end MarkedFrom

theorem markCount_le_live (hi : h.Inv) : h.markCount ≤ h.live := by
  rw [hi.marks, hi.live]
  refine Finset.sum_le_sum fun p _ => ?_
  rw [(hi.page p).live]
  exact List.countP_mono_left fun c _ hc => (hi.page p).marked c hc

theorem live_lt_markFuel (hi : h.Inv) : h.live < h.markFuel := by
  have hle : h.live ≤ ∑ p ∈ Finset.range h.pages.size, pageCells := by
    rw [hi.live]
    refine Finset.sum_le_sum fun p _ => ?_
    rw [(hi.page p).live]
    exact List.countP_le_length.trans_eq List.length_range
  rw [Finset.sum_const, Finset.card_range, smul_eq_mul] at hle
  exact Nat.lt_succ_of_le hle

/-- With fuel for every cell not marked yet, marking ends well. The induction is on the fuel and, as long
as nothing is marked, on the values left. -/
theorem markAll_spec {S : Ref → Prop} : ∀ fuel vs, ∀ h : Heap α, h.Inv → Closed h refs S →
    (∀ v ∈ vs, v.isRef = true → S v.toRef) → h.live < fuel + h.markCount →
    ∃ h', markAll refs fuel vs h = .ok () h' ∧ MarkedFrom refs S vs h h' := by
  intro fuel
  induction fuel with
  | zero =>
    intro vs h hi _ _ hfuel
    have := markCount_le_live hi
    omega
  | succ fuel ih =>
    intro vs
    induction vs with
    | nil => exact fun h hi _ _ _ => ⟨h, by rw [markAll]; rfl, .nil hi⟩
    | cons v rest ihv =>
      intro h hi hS hvs hfuel
      have hrest : ∀ w ∈ rest, w.isRef = true → S w.toRef := fun w hw => hvs w (List.mem_cons_of_mem _ hw)
      by_cases hv : v.isRef = true
      · obtain ⟨obj, hr, hrefs⟩ := hS _ (hvs v (List.mem_cons_self ..) hv)
        obtain ⟨hp, hc, -, ho, -⟩ := read_eq_ok.1 hr
        have hvis := visit_of_read hr
        by_cases hm : (h.cellAt v.toRef.page v.toRef.cell).marked = true
        · rw [if_pos hm] at hvis
          obtain ⟨h', hrun, hd⟩ := ihv h hi hS hrest hfuel
          exact ⟨h', by rw [markAll, if_pos hv, bind_apply, hvis]; exact hrun, hd.cons_done fun _ => hm⟩
        · rw [if_neg hm] at hvis
          have hobj : (h.cellAt v.toRef.page v.toRef.cell).obj.isSome = true := by rw [ho]; rfl
          have hi' := hi.setMark hp hc hobj (by simpa using hm)
          obtain ⟨h', hrun, hd⟩ := ih (refs obj ++ rest) _ hi'
            (hS.of_clearMarks (clearMarks_setMark hobj))
            (fun w hw hwr => (List.mem_append.1 hw).elim (hrefs w · hwr) (hrest w · hwr))
            (by show h.live < fuel + (h.markCount + 1); omega)
          exact ⟨h', by rw [markAll, if_pos hv, bind_apply, hvis]; exact hrun,
            .cons_visit hv (hvs v (List.mem_cons_self ..) hv) hr hd⟩
      · obtain ⟨h', hrun, hd⟩ := ihv h hi hS hrest hfuel
        exact ⟨h', by rw [markAll, if_neg hv]; exact hrun, hd.cons_done fun hr => absurd hr hv⟩

theorem markValues_spec {S : Ref → Prop} {vs : List Value} (hi : h.Inv) (hS : Closed h refs S)
    (hvs : ∀ v ∈ vs, v.isRef = true → S v.toRef) :
    ∃ h', markValues refs vs h = .ok () h' ∧ MarkedFrom refs S vs h h' := by
  obtain ⟨h', hrun, hd⟩ := markAll_spec h.markFuel vs h hi hS hvs
    ((live_lt_markFuel hi).trans_le (Nat.le_add_right ..))
  exact ⟨h', by rw [markValues, bind_apply, get_apply]; exact hrun, hd⟩

theorem markValue_spec {S : Ref → Prop} {v : Value} (hi : h.Inv) (hS : Closed h refs S)
    (hv : v.isRef = true → S v.toRef) :
    ∃ b h', markValue refs v h = .ok b h' ∧ MarkedFrom refs S [v] h h' := by
  by_cases hr : v.isRef = true
  · obtain ⟨obj, hread, hrefs⟩ := hS _ (hv hr)
    obtain ⟨hp, hc, -, ho, -⟩ := read_eq_ok.1 hread
    have hvis := visit_of_read hread
    by_cases hm : (h.cellAt v.toRef.page v.toRef.cell).marked = true
    · rw [if_pos hm] at hvis
      refine ⟨true, h, ?_, (MarkedFrom.nil hi).cons_done fun _ => hm⟩
      rw [markValue, if_pos hr, markRef, bind_apply, hvis]
      rfl
    · rw [if_neg hm] at hvis
      have hobj : (h.cellAt v.toRef.page v.toRef.cell).obj.isSome = true := by rw [ho]; rfl
      obtain ⟨h', hrun, hd⟩ := markValues_spec (hi.setMark hp hc hobj (by simpa using hm))
        (hS.of_clearMarks (clearMarks_setMark hobj)) hrefs
      refine ⟨false, h', ?_, .cons_visit hr (hv hr) hread (by rwa [List.append_nil])⟩
      rw [markValue, if_pos hr, markRef, bind_apply, hvis]
      simp only [bind_apply, hrun]
      rfl
  · exact ⟨false, h, by rw [markValue, if_neg hr]; rfl, (MarkedFrom.nil hi).cons_done fun h => absurd h hr⟩

/-- Marks from every value in turn. -/
def markRoots (refs : α → List Value) (roots : List Value) : HeapM α Unit :=
  roots.forM fun v => discard (markValue refs v)

theorem markRoots_spec {S : Ref → Prop} {roots : List Value} (hi : h.Inv) (hS : Closed h refs S)
    (hroots : ∀ v ∈ roots, v.isRef = true → S v.toRef) :
    ∃ h', markRoots refs roots h = .ok () h' ∧ MarkedFrom refs S roots h h' := by
  induction roots generalizing h with
  | nil => exact ⟨h, rfl, .nil hi⟩
  | cons v rest ih =>
    obtain ⟨b, h₁, hrun₁, hd₁⟩ := markValue_spec hi hS (hroots v (List.mem_cons_self ..))
    obtain ⟨h₂, hrun₂, hd₂⟩ := ih hd₁.inv (hS.of_clearMarks hd₁.same)
      fun w hw => hroots w (List.mem_cons_of_mem _ hw)
    refine ⟨h₂, ?_, hd₁.trans hd₂⟩
    have hfirst : (discard (markValue refs v) : HeapM α Unit) h = .ok () h₁ := by
      show ((fun _ => PUnit.unit) <$> markValue refs v) h = _
      rw [map_apply, hrun₁]
    show (discard (markValue refs v) >>= fun _ => markRoots refs rest) h = _
    rw [bind_apply, hfirst]
    exact hrun₂

end RubyMachine.Heap
