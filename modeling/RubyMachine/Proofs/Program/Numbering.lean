import RubyMachine.Program.Capture
import RubyMachine.Proofs.Function.Table
import RubyMachine.Proofs.Program.Denotation

/-! The numbering of a program that is being captured only grows, and a number that was given stands for
the same name or function from then on. `Gives` says what a part of the work gives, and is shown of each
part from what its own parts give. -/

namespace RubyMachine.Program

/-- The name that a number stands for. -/
def Numbering.Names (s : Numbering) (n : UInt32) (i : Ident) : Prop := s.idents[n.toNat]? = some i

/-- The function that a number stands for; numbers start at 1. -/
def Numbering.Calls (s : Numbering) (n : UInt32) (f : FnId) : Prop := n ≠ 0 ∧ s.fns[n.toNat - 1]? = some f

/-- A later numbering. -/
structure Numbering.Grows (s t : Numbering) : Prop where
  idents : s.idents.toList <+: t.idents.toList
  fns : s.fns.toList <+: t.fns.toList
  refused : t.refused = none → s.refused = none

/-- Names and functions are numbered once, name 0 being none. The functions are bytecode, and among those of
which `P` holds. -/
structure Numbering.Proper (m : Machine) (P : FnId → Prop) (s : Numbering) : Prop where
  idents : s.idents.toList.Nodup
  fns : s.fns.toList.Nodup
  none : s.idents[0]? = some .none
  bytecode : ∀ f ∈ s.fns, Capture.isBytecode m f = true ∧ P f

namespace Numbering

variable {s t u : Numbering} {m : Machine} {P : FnId → Prop}

theorem Grows.refl (s : Numbering) : s.Grows s := ⟨List.prefix_refl _, List.prefix_refl _, id⟩

theorem Grows.trans (h : s.Grows t) (h' : t.Grows u) : s.Grows u :=
  ⟨h.idents.trans h'.idents, h.fns.trans h'.fns, fun hu => h.refused (h'.refused hu)⟩

theorem getElem?_of_prefix {α : Type} {a b : Array α} (h : a.toList <+: b.toList) {i : Nat} {x : α}
    (hx : a[i]? = some x) : b[i]? = some x := by
  obtain ⟨l, hl⟩ := h
  rw [← Array.getElem?_toList] at hx ⊢
  rw [← hl, List.getElem?_append_left (List.getElem?_eq_some_iff.1 hx).1, hx]

theorem Grows.names (h : s.Grows t) {n : UInt32} {i : Ident} (hn : s.Names n i) : t.Names n i :=
  getElem?_of_prefix h.idents hn

theorem Grows.calls (h : s.Grows t) {n : UInt32} {f : FnId} (hn : s.Calls n f) : t.Calls n f :=
  ⟨hn.1, getElem?_of_prefix h.fns hn.2⟩

end Numbering

/-! ## There are numbers enough -/

theorem length_le_of_nodup {α : Type} {l : List α} {k : Nat} {g : α → Nat} (hg : ∀ a ∈ l, ∀ b ∈ l, g a = g b → a = b)
    (hl : l.Nodup) (hk : ∀ a ∈ l, g a < k) : l.length ≤ k := by
  have hs : l.map g ⊆ List.range k := by
    intro x hx
    obtain ⟨a, ha, rfl⟩ := List.mem_map.1 hx
    exact List.mem_range.2 (hk a ha)
  simpa using ((hl.map_on hg).subperm hs).length_le

theorem length_idents_le {l : List Ident} (hl : l.Nodup) : l.length ≤ 2 ^ 32 :=
  length_le_of_nodup (g := fun i => i.id.toNat) (fun _ _ _ _ h => congrArg Ident.mk (UInt32.toNat.inj h)) hl
    fun i _ => i.id.toNat_lt

namespace Capture

variable {m : Machine}

theorem isBytecode_iff {f : FnId} : isBytecode m f = true ↔ ∃ q, m.functions.sequence f = .ok q := by
  simp only [FunctionTable.sequence_eq_ok, isBytecode]
  cases m.functions.find? f with
  | none => simp
  | some g =>
    obtain ⟨_, body⟩ := g
    cases body <;> simp

theorem id_bounds {f : FnId} (h : isBytecode m f = true) : 0 < f.id.toNat ∧ f.id.toNat ≤ m.functions.size := by
  unfold isBytecode FunctionTable.find? at h
  by_cases hz : f.id = 0
  · simp [hz] at h
  · rw [if_neg hz] at h
    have hpos : 0 < f.id.toNat := Nat.pos_of_ne_zero fun h => hz (UInt32.toNat.inj h)
    refine ⟨hpos, ?_⟩
    by_contra hlt
    rw [Array.getElem?_eq_none (by simp only [FunctionTable.size] at hlt; omega)] at h
    cases h

end Capture

theorem Numbering.Proper.length_fns {m : Machine} {P : FnId → Prop} {s : Numbering} (h : s.Proper m P) :
    s.fns.size ≤ m.functions.size ∧ s.fns.size < 2 ^ 32 := by
  have hb : ∀ f ∈ s.fns.toList, 0 < f.id.toNat ∧ f.id.toNat ≤ m.functions.size := fun f hf =>
    Capture.id_bounds (h.bytecode f (Array.mem_toList_iff.1 hf)).1
  have hinj : ∀ f ∈ s.fns.toList, ∀ g ∈ s.fns.toList, f.id.toNat - 1 = g.id.toNat - 1 → f = g := by
    intro f hf g hg he
    have hf := (hb f hf).1
    have hg := (hb g hg).1
    exact congrArg FnId.mk (UInt32.toNat.inj (by omega))
  have hsize : s.fns.toList.length ≤ m.functions.size := length_le_of_nodup hinj h.fns fun f hf => by
    have := hb f hf
    omega
  have hmax : s.fns.toList.length ≤ 2 ^ 32 - 1 := length_le_of_nodup hinj h.fns fun f hf => by
    have := (hb f hf).1
    have := f.id.toNat_lt
    omega
  rw [Array.length_toList] at hsize hmax
  exact ⟨hsize, by omega⟩

namespace Capture

variable {α β : Type} {s t u : Numbering} {m : Machine} {P : FnId → Prop}

/-- A part of the work gives a result and a later numbering. -/
def Gives (x : Capture α) (s : Numbering) (a : α) (t : Numbering) : Prop := (x s).run = .ok (.ok (a, t))

theorem gives_pure {a b : α} : Gives (pure a) s b t ↔ a = b ∧ s = t := by
  have h : ((pure a : Capture α) s).run = .ok (.ok (a, s)) := rfl
  simp [Gives, h]

theorem gives_bind {x : Capture α} {f : α → Capture β} {b : β} :
    Gives (x >>= f) s b u ↔ ∃ a t, Gives x s a t ∧ Gives (f a) t b u := by
  have h : ((x >>= f) s).run = match (x s).run with
      | .ok (.ok (a, t)) => (f a t).run
      | .ok (.error e) => .ok (.error e)
      | .error d => .error d := by
    change (ExceptT.bind (x s) fun p => f p.1 p.2) = _
    unfold ExceptT.bind ExceptT.mk ExceptT.run
    generalize x s = r
    match r with
    | .ok (.ok (a, t)) => rfl
    | .ok (.error e) => rfl
    | .error d => rfl
  rw [Gives, h]
  rcases hx : (x s).run with d | (e | ⟨a, t⟩) <;> simp [Gives, hx]

theorem gives_certain {x : Except Defect α} {a : α} : Gives (certain x) s a t ↔ x = .ok a ∧ s = t := by
  cases x with
  | ok b =>
    have h : ((certain (.ok b)) s).run = .ok (.ok (b, s)) := rfl
    simp [Gives, h]
  | error d =>
    have h : ((certain (.error d) : Capture α) s).run = .error d := rfl
    simp [Gives, h]

theorem gives_get {a : Numbering} : Gives get s a t ↔ s = a ∧ s = t := by
  have h : ((get : Capture Numbering) s).run = .ok (.ok (s, s)) := rfl
  simp [Gives, h]

theorem gives_modifyGet {f : Numbering → α × Numbering} {a : α} : Gives (modifyGet f) s a t ↔ f s = (a, t) := by
  have h : ((modifyGet f : Capture α) s).run = .ok (.ok (f s)) := rfl
  simp [Gives, h]

theorem not_gives_refuse {e : Error} {a : α} : ¬ Gives (refuse e) s a t := by
  have h : ((refuse e : Capture α) s).run = .ok (.error e) := rfl
  simp [Gives, h]

/-! ## Names and functions -/

theorem nodup_push {δ : Type} {xs : Array δ} {x : δ} (h : xs.toList.Nodup) (hx : x ∉ xs) : (xs.push x).toList.Nodup := by
  rw [Array.toList_push, ← List.concat_eq_append]
  exact h.concat fun hm => hx (Array.mem_toList_iff.1 hm)

theorem gives_ident {i : Ident} {n : UInt32} (hs : s.Proper m P) (h : Gives (ident i) s n t) :
    s.Grows t ∧ t.Proper m P ∧ t.Names n i := by
  have h := gives_modifyGet.1 h
  cases hk : s.idents.findIdx? (· == i) with
  | some k =>
    rw [hk] at h
    obtain ⟨rfl, rfl⟩ := Prod.mk.inj h
    obtain ⟨hlt, hki, -⟩ := Array.findIdx?_eq_some_iff_getElem.1 hk
    have hsize := length_idents_le hs.idents
    rw [Array.length_toList] at hsize
    refine ⟨.refl s, hs, ?_⟩
    rw [Numbering.Names, UInt32.toNat_ofNat_of_lt' (by rw [UInt32.size]; omega), Array.getElem?_eq_getElem hlt,
      beq_iff_eq.1 hki]
  | none =>
    rw [hk] at h
    obtain ⟨rfl, rfl⟩ := Prod.mk.inj h
    have hi : i ∉ s.idents := fun hm => by simpa using Array.findIdx?_eq_none_iff.1 hk i hm
    have hn := nodup_push hs.idents hi
    have hsize := length_idents_le hn
    rw [Array.length_toList, Array.size_push] at hsize
    refine ⟨⟨by simp, List.prefix_refl _, id⟩, { hs with idents := hn, none := ?_ }, ?_⟩
    · obtain ⟨hlt, -⟩ := Array.getElem?_eq_some_iff.1 hs.none
      rw [Array.getElem?_push_lt hlt, ← hs.none, Array.getElem?_eq_getElem hlt]
    · rw [Numbering.Names, UInt32.toNat_ofNat_of_lt' (by rw [UInt32.size]; omega), Array.getElem?_push_size]

theorem gives_fn {f : FnId} {n : UInt32} (hs : s.Proper m P) (hf : P f) (h : Gives (fn m f) s n t) :
    s.Grows t ∧ t.Proper m P ∧ (t.refused = none → t.Calls n f) := by
  have hcalls : ∀ {u : Numbering} {k : Nat}, k + 1 < 2 ^ 32 → u.fns[k]? = some f → u.Calls (UInt32.ofNat (k + 1)) f := by
    intro u k hk hu
    have hn : (UInt32.ofNat (k + 1)).toNat = k + 1 := UInt32.toNat_ofNat_of_lt' (by rwa [UInt32.size])
    refine ⟨fun hz => ?_, by rwa [hn]⟩
    rw [hz] at hn
    cases hn
  have h := gives_modifyGet.1 h
  cases hk : s.fns.findIdx? (· == f) with
  | some k =>
    rw [hk] at h
    obtain ⟨rfl, rfl⟩ := Prod.mk.inj h
    obtain ⟨hlt, hkf, -⟩ := Array.findIdx?_eq_some_iff_getElem.1 hk
    have hsize := hs.length_fns.2
    exact ⟨.refl s, hs, fun _ => hcalls (by omega) (by rw [Array.getElem?_eq_getElem hlt, beq_iff_eq.1 hkf])⟩
  | none =>
    rw [hk] at h
    by_cases hb : isBytecode m f = true
    · rw [if_pos hb] at h
      obtain ⟨rfl, rfl⟩ := Prod.mk.inj h
      have hnot : f ∉ s.fns := fun hm => by simpa using Array.findIdx?_eq_none_iff.1 hk f hm
      have hp : ({ s with fns := s.fns.push f } : Numbering).Proper m P :=
        { hs with
          fns := nodup_push hs.fns hnot
          bytecode := fun g hg => by
            rcases Array.mem_push.1 hg with hg | rfl
            · exact hs.bytecode g hg
            · exact ⟨hb, hf⟩ }
      have hsize := hp.length_fns.2
      rw [Array.size_push] at hsize
      exact ⟨⟨List.prefix_refl _, by simp, id⟩, hp, fun _ => hcalls hsize Array.getElem?_push_size⟩
    · rw [if_neg hb] at h
      obtain ⟨rfl, rfl⟩ := Prod.mk.inj h
      have hr : s.refused.or (some f) ≠ none := by cases s.refused <;> simp
      exact ⟨⟨List.prefix_refl _, List.prefix_refl _, fun h => absurd h hr⟩, { hs with }, fun h => absurd h hr⟩

/-! ## Lists -/

theorem gives_mapM {R : Numbering → β → α → Prop} {f : β → Capture α} {l : List β} {as : List α}
    (hR : ∀ s t b a, s.Grows t → R s b a → R t b a)
    (hf : ∀ b ∈ l, ∀ s a t, s.Proper m P → Gives (f b) s a t → s.Grows t ∧ t.Proper m P ∧ R t b a)
    (hs : s.Proper m P) (h : Gives (l.mapM f) s as t) :
    s.Grows t ∧ t.Proper m P ∧ List.Forall₂ (R t) l as := by
  induction l generalizing s as with
  | nil =>
    obtain ⟨rfl, rfl⟩ := gives_pure.1 h
    exact ⟨.refl _, hs, .nil⟩
  | cons b l ih =>
    rw [List.mapM_cons] at h
    obtain ⟨a, u, hb, h⟩ := gives_bind.1 h
    obtain ⟨as, v, hl, h⟩ := gives_bind.1 h
    obtain ⟨rfl, rfl⟩ := gives_pure.1 h
    obtain ⟨hg, hp, hr⟩ := hf b (by simp) s a u hs hb
    obtain ⟨hg', hp', hrs⟩ := ih (fun b hb => hf b (by simp [hb])) hp hl
    exact ⟨hg.trans hg', hp', .cons (hR _ _ _ _ hg' hr) hrs⟩

end Capture

end RubyMachine.Program
