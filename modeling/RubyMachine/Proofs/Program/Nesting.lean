import RubyMachine.Proofs.Heap.Marking
import RubyMachine.Proofs.Program.Numbering
import RubyMachine.Proofs.Value.Kinds

/-! How deep arrays are nested. The arrays on a way down into one that lies in no array that lies in it are all
different, so there are no more of them than cells. -/

namespace RubyMachine

namespace Heap

variable {h : Heap Object} {v w x : Value}

/-- A value is an element of an array. -/
def Elem (h : Heap Object) (x v : Value) : Prop :=
  v.isRef = true ∧ ∃ es, h.read v.toRef = .ok (.array es) ∧ x ∈ es

/-- Fewer than `n` arrays are nested in a value. -/
def Shallow (h : Heap Object) : Nat → Value → Prop
  | 0, _ => False
  | n + 1, v => ∀ x, h.Elem x v → h.Shallow n x

theorem Shallow.eq_succ {n : Nat} (hn : h.Shallow n v) : ∃ k, n = k + 1 := by
  cases n with
  | zero => exact hn.elim
  | succ k => exact ⟨k, rfl⟩

theorem Shallow.mono {n k : Nat} (hn : h.Shallow n v) (hk : n ≤ k) : h.Shallow k v := by
  induction n generalizing k v with
  | zero => exact hn.elim
  | succ n ih =>
    obtain ⟨k, rfl⟩ := Nat.exists_eq_succ_of_ne_zero (by omega : k ≠ 0)
    exact fun x hx => ih (hn x hx) (by omega)

theorem Elem.congr (hx : h.Elem x v) (hw : w.isRef = true) (hr : w.toRef = v.toRef) : h.Elem x w :=
  ⟨hw, hr ▸ hx.2⟩

/-- Different references to objects are no more than there are cells. -/
theorem length_le_cells {vs : List Value} (hd : (vs.map Value.toRef).Nodup)
    (hr : ∀ v ∈ vs, ∃ o, h.read v.toRef = .ok o) : vs.length ≤ h.pages.size * pageCells := by
  rw [← List.length_map Value.toRef]
  have hread : ∀ r ∈ vs.map Value.toRef, ∃ (v : Value) (o : Object), v.toRef = r ∧ h.read r = .ok o := by
    intro r hm
    obtain ⟨v, hv, rfl⟩ := List.mem_map.1 hm
    obtain ⟨o, ho⟩ := hr v hv
    exact ⟨v, o, rfl, ho⟩
  refine Program.length_le_of_nodup (g := fun r => r.page * pageCells + r.cell) ?_ hd ?_
  · intro a ha b hb he
    obtain ⟨v, o, rfl, ho⟩ := hread a ha
    obtain ⟨w, o', rfl, ho'⟩ := hread b hb
    obtain ⟨-, hc, -, -, hg⟩ := read_eq_ok.1 ho
    obtain ⟨-, hc', -, -, hg'⟩ := read_eq_ok.1 ho'
    simp only [pageCells] at he hc hc'
    have hpage : v.toRef.page = w.toRef.page := by omega
    have hcell : v.toRef.cell = w.toRef.cell := by omega
    refine Ref.toRef_ext hpage hcell ?_
    rw [← hg, ← hg', hpage, hcell]
  · intro r hm
    obtain ⟨v, o, rfl, ho⟩ := hread r hm
    obtain ⟨hp, hc, -⟩ := read_eq_ok.1 ho
    exact lt_of_lt_of_le (Nat.add_lt_add_left hc _) (by rw [← Nat.succ_mul]; exact Nat.mul_le_mul_right _ hp)

theorem not_transGen_self (hv : Acc h.Elem v) : ¬ Relation.TransGen h.Elem v v := by
  induction acc_transGen_iff.2 hv with
  | intro v _ ih => exact fun hself => ih v hself (acc_transGen_iff.1 (.intro v ‹_›)) hself

/-- What lies in the arrays of `above`, all different, is nested no deeper than the cells that are left. -/
theorem shallow_below (hv : Acc h.Elem v) {above : List Value} (hd : (above.map Value.toRef).Nodup)
    (ha : ∀ w ∈ above, w.isRef = true ∧ Relation.TransGen h.Elem v w) {n : Nat}
    (hn : h.pages.size * pageCells < n + above.length) : h.Shallow n v := by
  induction hv generalizing above n with
  | intro v hacc ih =>
    cases n with
    | zero =>
      have hlen : above.length ≤ h.pages.size * pageCells := by
        refine length_le_cells hd fun w hw => ?_
        obtain ⟨y, -, -, es, hes, -⟩ := Relation.TransGen.tail'_iff.1 (ha w hw).2
        exact ⟨_, hes⟩
      omega
    | succ n =>
      intro x hx
      have hnot : v.toRef ∉ above.map Value.toRef := fun hm => by
        obtain ⟨w, hw, hr⟩ := List.mem_map.1 hm
        obtain ⟨y, hy, hyw⟩ := Relation.TransGen.tail'_iff.1 (ha w hw).2
        exact not_transGen_self (.intro v hacc) (.tail' hy (hyw.congr hx.1 hr.symm))
      have hall : ∀ w ∈ v :: above, w.isRef = true ∧ Relation.TransGen h.Elem x w := fun w hw => by
        rcases List.mem_cons.1 hw with rfl | hw
        · exact ⟨hx.1, .single hx⟩
        · exact ⟨(ha w hw).1, .head hx (ha w hw).2⟩
      have hdistinct : ((v :: above).map Value.toRef).Nodup := List.nodup_cons.2 ⟨hnot, hd⟩
      exact ih x hx hdistinct hall (by rw [List.length_cons]; omega)

/-- The arrays in a value that stands at the top. -/
theorem shallow_of_acc (hv : Acc h.Elem v) : h.Shallow (h.pages.size * pageCells + 1) v :=
  shallow_below hv (show ([].map Value.toRef).Nodup from List.nodup_nil) (by simp) (by simp)

end Heap

/-! ## Literals that are alike -/

namespace Value.Alike

variable {h h' : Heap Object} {I J : Ident → Ident → Prop} {v w : Value}

theorem flip (ha : v.Alike h h' I w) (hI : ∀ i j, I i j → J j i) : w.Alike h' h J v := by
  induction ha with
  | nil => exact .nil
  | true => exact .true
  | false => exact .false
  | int hv hw hn => exact .int hw hv hn.symm
  | float hv => exact .float hv
  | symbol hv hw hi => exact .symbol hw hv (hI _ _ hi)
  | string hv hw hr hr' => exact .string hw hv hr' hr
  | array hv hw hr hr' hlen _ ih => exact .array hw hv hr' hr hlen.symm fun i x y hx hy => ih i y x hy hx

theorem acc (ha : v.Alike h h' I w) : Acc h.Elem v := by
  have himm : ∀ {u : Value}, u.isRef = Bool.false → Acc h.Elem u := fun hu =>
    .intro _ fun x hx => by rw [hx.1] at hu; cases hu
  induction ha with
  | nil | true | false => exact himm (by decide)
  | int hv => exact himm (hasTag_of_ne hv (by decide))
  | @float v hv =>
    refine himm (Bool.eq_false_of_not_eq_true fun hr => ?_)
    rw [isFloat_of_hasTag hr (by decide)] at hv
    cases hv
  | symbol hv => exact himm (hasTag_of_ne hv (by decide))
  | string hv hw hr =>
    refine .intro _ fun x hx => ?_
    obtain ⟨-, es, hes, -⟩ := hx
    cases hr.symm.trans hes
  | @array v w es fs hv hw hr hr' hlen _ ih =>
    refine .intro _ fun x hx => ?_
    obtain ⟨-, es', hes, hm⟩ := hx
    cases hr.symm.trans hes
    obtain ⟨i, hi, rfl⟩ := Array.getElem_of_mem hm
    exact ih i _ _ (Array.getElem?_eq_getElem hi) (Array.getElem?_eq_getElem (hlen ▸ hi))

end Value.Alike

end RubyMachine
