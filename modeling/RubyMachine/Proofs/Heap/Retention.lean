import RubyMachine.Proofs.Heap.Collection

/-! Nothing that is reached is lost, whatever else the roots lead to. Other references may have gone stale: marking passes
by them, and still marks all that good ones lead to. -/

namespace RubyMachine.Heap

variable {α : Type} {h h' : Heap α} {refs : α → List Value} {roots vs : List Value} {v : Value}

/-- The cell of the value is marked in `h'`, if the value is a reference that is good in `h`. -/
def Finds (h h' : Heap α) (v : Value) : Prop :=
  v.isRef = true → ∀ obj, h.read v.toRef = .ok obj → h'.IsMarked v.toRef.page v.toRef.cell

/-- `h'` is `h` after marking from the values `vs` on, good ones or not. -/
structure Marks (refs : α → List Value) (vs : List Value) (h h' : Heap α) : Prop where
  same : h'.clearMarks = h.clearMarks
  inv : h'.Inv
  mono : ∀ p c, h.IsMarked p c → h'.IsMarked p c
  roots : ∀ v ∈ vs, h.Finds h' v
  closed : ∀ p c obj, h'.IsMarked p c → ¬ h.IsMarked p c → (h.cellAt p c).obj = some obj →
    ∀ v ∈ refs obj, h.Finds h' v

namespace Marks

theorem nil (hi : h.Inv) : Marks refs [] h h :=
  ⟨rfl, hi, fun _ _ => id, by simp, fun _ _ _ h1 h2 => absurd h1 h2⟩

/-- A value that leads to no cell, or to one that is marked already, is done with. -/
theorem cons_done (hv : h.Finds h v) (h1 : Marks refs vs h h') : Marks refs (v :: vs) h h' :=
  { h1 with
    roots := fun w hw => by
      rcases List.mem_cons.1 hw with rfl | hw
      · exact fun hr obj ho => h1.mono _ _ (hv hr obj ho)
      · exact h1.roots w hw }

/-- A cell is marked, then what its object and the other values lead to. -/
theorem cons_visit {obj : α} (hp : v.toRef.page < h.pages.size)
    (ho : (h.cellAt v.toRef.page v.toRef.cell).obj = some obj)
    (h1 : Marks refs (refs obj ++ vs) (h.setMark v.toRef.page v.toRef.cell) h') : Marks refs (v :: vs) h h' := by
  have hcell := cellAt_setMark hp v.toRef.cell
  have hsame : (h.setMark v.toRef.page v.toRef.cell).clearMarks = h.clearMarks :=
    clearMarks_setMark (by rw [ho]; rfl)
  have hself : (h.setMark v.toRef.page v.toRef.cell).IsMarked v.toRef.page v.toRef.cell := by
    rw [IsMarked, hcell, if_pos ⟨rfl, rfl⟩]
  have finds {w : Value} (hw : (h.setMark v.toRef.page v.toRef.cell).Finds h' w) : h.Finds h' w :=
    fun hr obj ho => hw hr obj ((read_of_clearMarks hsame _).trans ho)
  refine ⟨h1.same.trans hsame, h1.inv, fun p c hm => h1.mono p c ?_, fun w hw => ?_, fun p c obj' hm hn ho' w hw => ?_⟩
  · rw [IsMarked, hcell]
    split_ifs
    · rfl
    · exact hm
  · rcases List.mem_cons.1 hw with rfl | hw
    · exact fun _ _ _ => h1.mono _ _ hself
    · exact finds (h1.roots w (List.mem_append_right _ hw))
  · by_cases hpc : p = v.toRef.page ∧ c = v.toRef.cell
    · obtain ⟨rfl, rfl⟩ := hpc
      cases ho.symm.trans ho'
      exact finds (h1.roots w (List.mem_append_left _ hw))
    · refine finds (h1.closed p c obj' hm ?_ ?_ w hw)
      · rwa [IsMarked, hcell, if_neg hpc]
      · rwa [hcell, if_neg hpc]

end Marks

/-- Marking that ends well has found all good references. The induction is on the fuel and, as long as nothing is
marked, on the values left. -/
theorem markAll_marks (fuel : Nat) (vs : List Value) (hi : h.Inv) (hfuel : h.live < fuel + h.markCount)
    (hrun : markAll refs fuel vs h = .ok () h') : Marks refs vs h h' := by
  induction fuel generalizing vs h with
  | zero =>
    have := markCount_le_live hi
    omega
  | succ fuel ih =>
    induction vs with
    | nil =>
      rw [markAll] at hrun
      cases hrun
      exact .nil hi
    | cons v rest ihv =>
      rw [markAll] at hrun
      cases hv : v.isRef with
      | false =>
        rw [hv, if_neg (by decide)] at hrun
        exact (ihv hrun).cons_done fun hr => by rw [hv] at hr; cases hr
      | true =>
        rw [hv, if_pos rfl] at hrun
        obtain ⟨o, h₁, hvisit, hrest⟩ := exists_of_bind hrun
        rcases visit_ok hvisit with ⟨rfl, rfl⟩ | ⟨obj, rfl, rfl, hp, hc, ho, hm⟩
        · refine (ihv hrest).cons_done fun _ obj hread => ?_
          by_contra hn
          rw [visit_of_read hread, if_neg (show ¬(h₁.cellAt v.toRef.page v.toRef.cell).marked = true from hn)] at hvisit
          cases hvisit
        · have hobj : (h.cellAt v.toRef.page v.toRef.cell).obj.isSome = true := by rw [ho]; rfl
          refine .cons_visit hp ho (ih _ (hi.setMark hp hc hobj hm) ?_ hrest)
          show h.live < fuel + (h.markCount + 1)
          omega

theorem markValues_marks (hi : h.Inv) (hrun : markValues refs vs h = .ok () h') : Marks refs vs h h' :=
  markAll_marks _ vs hi ((live_lt_markFuel hi).trans_le (Nat.le_add_right ..)) hrun

/-- What is reached through good references is marked. -/
theorem Marks.of_reaches (hm : Marks refs roots h.clearMarks h') {r : Ref} (hr : Reaches h refs roots r) {obj : α}
    (ho : h.read r = .ok obj) : h'.IsMarked r.page r.cell := by
  have hread (r : Ref) : h.clearMarks.read r = h.read r := read_of_clearMarks (clearMarks_clearMarks h) r
  have hclear (p c : Nat) : ¬ h.clearMarks.IsMarked p c := fun hm => by
    rw [IsMarked, cellAt_clearMarks] at hm
    cases hm
  induction hr generalizing obj with
  | root hv href => exact hm.roots _ hv href obj ((hread _).trans ho)
  | @step r obj' v _ hread' hv href ih =>
    refine hm.closed r.page r.cell obj' (ih hread') (hclear _ _) ?_ v hv href obj ((hread _).trans ho)
    rw [cellAt_clearMarks]
    exact (read_eq_ok.1 hread').2.2.2.1

/-- After marking from the roots on and sweeping, objects that good references lead to are there as before. -/
theorem Marks.sweep_keeps (hm : Marks refs roots h.clearMarks h') {freed : List α} {h'' : Heap α}
    (hrun : sweep h' = .ok freed h'') : h''.Inv ∧
      ∀ r obj, Reaches h refs roots r → h.read r = .ok obj → h''.read r = .ok obj := by
  obtain ⟨_, _, hrun', hs, -⟩ := sweep_spec hm.inv.toCore
  cases hrun.symm.trans hrun'
  refine ⟨hs.inv, fun r obj hr ho => ?_⟩
  obtain ⟨hp, hlt, -, hobj, hgen⟩ := read_eq_ok.1 ho
  have hmarked := hm.of_reaches hr ho
  have hkept : (h'.cellAt r.page r.cell).isDoomed ≠ true := fun hd => ((isDoomed_eq _ _).1 hd).2 hmarked
  have hcell : h'.cellAt r.page r.cell = { h.cellAt r.page r.cell with marked := true } := by
    have := cellAt_of_clearMarks hm.same r.page r.cell
    rw [cellAt_clearMarks, show (h'.cellAt r.page r.cell).marked = true from hmarked] at this
    exact this
  have hobj' : (h''.cellAt r.page r.cell).obj = some obj := by
    rw [hs.obj, Cell.swept, if_neg hkept, hcell]
    exact hobj
  refine read_eq_ok.2 ⟨?_, hlt, ?_, hobj', ?_⟩
  · rwa [hs.size, size_of_clearMarks hm.same, (sameShape_clearMarks h).size]
  · exact (hs.inv.page _).not_free_of_obj (by rw [← cellAt_eq, hobj']; rfl)
  · rw [hs.gen, Cell.swept, if_neg hkept, hcell]
    exact hgen

end RubyMachine.Heap
