import Mathlib.Tactic
import RubyMachine.Proofs.Computation

/-! Tables of names grow by names that they do not have, so a number keeps its name and no name has two
numbers. -/

namespace RubyMachine

namespace IdentTable

variable {t t' t'' : IdentTable} {name : String}

/-- The numbers of a table keep their names in another one. -/
def Grows (t t' : IdentTable) : Prop := t.names.toList <+: t'.names.toList

/-- A number has been given to a name. -/
def Has (t : IdentTable) (i : Ident) (name : String) : Prop := t.names[i.id.toNat]? = some name

instance (t : IdentTable) (i : Ident) (name : String) : Decidable (t.Has i name) := inferInstanceAs (Decidable (_ = _))

/-- No name has two numbers, and the first one is empty. -/
structure Proper (t : IdentTable) : Prop where
  nodup : t.names.toList.Nodup
  first : t.names[0]? = some ""

theorem Grows.refl (t : IdentTable) : t.Grows t := List.prefix_refl _

theorem Grows.trans (h : t.Grows t') (h' : t'.Grows t'') : t.Grows t'' := List.IsPrefix.trans h h'

theorem Grows.has (h : t.Grows t') {i : Ident} (hi : t.Has i name) : t'.Has i name := by
  obtain ⟨l, hl⟩ := h
  unfold Has at *
  rw [← Array.getElem?_toList] at hi ⊢
  rw [← hl, List.getElem?_append_left (List.getElem?_eq_some_iff.1 hi).1, hi]

theorem Has.name_eq {i : Ident} (h : t.Has i name) : t.name i = name := by
  rw [IdentTable.name, Array.getD_eq_getD_getElem?, h, Option.getD_some]

theorem proper_empty : empty.Proper := ⟨by decide, rfl⟩

theorem lookup?_eq_none (h : t.lookup? name = none) : name ∉ t.names := by
  rw [lookup?, Option.map_eq_none_iff, Array.findIdx?_eq_none_iff] at h
  intro hm
  simpa using h name hm

theorem lookup?_eq_some {i : Ident} (hs : t.size ≤ 2 ^ 32) (h : t.lookup? name = some i) : t.Has i name := by
  rw [lookup?, Option.map_eq_some_iff] at h
  obtain ⟨k, hk, rfl⟩ := h
  obtain ⟨hlt, hname, -⟩ := Array.findIdx?_eq_some_iff_getElem.1 hk
  rw [size] at hs
  rw [Has, UInt32.toNat_ofNat_of_lt' (by rw [UInt32.size]; omega), Array.getElem?_eq_getElem hlt, beq_iff_eq.1 hname]

theorem intern_grows (t : IdentTable) (name : String) : t.Grows (t.intern name).2 := by
  unfold intern
  cases t.lookup? name with
  | some i => exact .refl t
  | none =>
    change t.names.toList <+: (t.names.push name).toList
    rw [Array.toList_push]
    exact List.prefix_append _ _

theorem size_intern_le (t : IdentTable) (name : String) : (t.intern name).2.size ≤ t.size + 1 := by
  unfold intern
  cases t.lookup? name with
  | some i => exact Nat.le_succ _
  | none => exact (Array.size_push ..).le

theorem Proper.intern (h : t.Proper) (name : String) : (t.intern name).2.Proper := by
  refine ⟨?_, (intern_grows t name).has (i := ⟨0⟩) h.first⟩
  unfold IdentTable.intern
  cases hl : t.lookup? name with
  | some i => exact h.nodup
  | none =>
    change (t.names.push name).toList.Nodup
    rw [Array.toList_push, ← List.concat_eq_append]
    exact h.nodup.concat fun hm => lookup?_eq_none hl (Array.mem_toList_iff.1 hm)

/-- A name keeps its number. -/
theorem Grows.lookup? (h : t.Grows t') {i : Ident} (hi : t.lookup? name = some i) : t'.lookup? name = some i := by
  obtain ⟨l, hl⟩ := h
  have hn : t'.names = t.names ++ l.toArray := Array.toList_inj.1 (by rw [← hl, Array.toList_append])
  unfold IdentTable.lookup? at *
  obtain ⟨k, hk, rfl⟩ := Option.map_eq_some_iff.1 hi
  rw [hn, Array.findIdx?_append, hk]
  rfl

theorem lookup?_intern (t : IdentTable) (name : String) : (t.intern name).2.lookup? name = some (t.intern name).1 := by
  unfold intern
  cases h : t.lookup? name with
  | some i => exact h
  | none =>
    unfold lookup? at h ⊢
    rw [Option.map_eq_none_iff] at h
    simp [Array.findIdx?_push, h, size]

/-- A number has at most one name, and a name at most one number. -/
theorem Proper.eq_of_has (h : t.Proper) {i j : Ident} (hi : t.Has i name) (hj : t.Has j name) : i = j := by
  unfold Has at hi hj
  rw [← Array.getElem?_toList] at hi hj
  obtain ⟨hi, hi'⟩ := List.getElem?_eq_some_iff.1 hi
  obtain ⟨hj, hj'⟩ := List.getElem?_eq_some_iff.1 hj
  exact congrArg Ident.mk (UInt32.toNat.inj ((List.Nodup.getElem_inj_iff h.nodup).1 (hi'.trans hj'.symm)))

end IdentTable

/-- Interning names leaves everything else, and each name is found. -/
theorem Exec.mapM_intern_lookup? (m : Machine) (l : List String) : ∃ is t,
    l.mapM Exec.intern m = .ok is { m with idents := t } ∧ m.idents.Grows t ∧ t.size ≤ m.idents.size + l.length ∧
      List.Forall₂ (fun name i => t.lookup? name = some i) l is := by
  induction l generalizing m with
  | nil => exact ⟨[], m.idents, rfl, .refl _, le_rfl, .nil⟩
  | cons name l ih =>
    obtain ⟨is, t, hrun, hg, hs, hall⟩ := ih { m with idents := (m.idents.intern name).2 }
    have hsize := IdentTable.size_intern_le m.idents name
    refine ⟨(m.idents.intern name).1 :: is, t, ?_, (m.idents.intern_grows name).trans hg, ?_,
      .cons (hg.lookup? (m.idents.lookup?_intern name)) hall⟩
    · simp only [List.mapM_cons, bind_apply, Exec.intern, modifyGet_apply, pure_apply] at hrun ⊢
      rw [hrun]
    · rw [List.length_cons]
      dsimp only at hs
      omega

/-- With numbers for all names, each number stands for its name. -/
theorem Exec.mapM_intern {m : Machine} {l : List String} (hs : m.idents.size + l.length ≤ 2 ^ 32) : ∃ is t,
    l.mapM Exec.intern m = .ok is { m with idents := t } ∧ m.idents.Grows t ∧
      List.Forall₂ (fun name i => t.Has i name) l is := by
  obtain ⟨is, t, hrun, hg, hsize, hall⟩ := mapM_intern_lookup? m l
  exact ⟨is, t, hrun, hg, hall.imp fun _ _ => IdentTable.lookup?_eq_some (hsize.trans hs)⟩

end RubyMachine
