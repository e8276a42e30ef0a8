import RubyMachine.Proofs.Computation
import RubyMachine.Proofs.Function.Table
import RubyMachine.Machine.Classes
import Mathlib.Order.Basic

/-! Lookups through caches. What is remembered is right when it is never of a later version than the
machine's, and what is of the same version agrees with the class tables. -/

namespace RubyMachine

/-! ## What a lookup depends on -/

namespace ClassTable

variable {t t' : ClassTable}

/-- The same superclasses, modules mixed in and methods. -/
structure Alike (t t' : ClassTable) : Prop where
  size : t'.size = t.size
  super : ∀ c, (t'.entry c).super = (t.entry c).super
  includes : ∀ c, (t'.entry c).includes = (t.entry c).includes
  methods : ∀ c, (t'.entry c).methods = (t.entry c).methods

theorem Alike.rfl : t.Alike t := ⟨by rfl, fun _ => by rfl, fun _ => by rfl, fun _ => by rfl⟩

theorem Alike.trans {t'' : ClassTable} (h : t.Alike t') (h' : t'.Alike t'') : t.Alike t'' :=
  ⟨h'.size.trans h.size, fun c => (h'.super c).trans (h.super c), fun c => (h'.includes c).trans (h.includes c),
    fun c => (h'.methods c).trans (h.methods c)⟩

/-- A chain depends on the superclasses. -/
theorem chain_congr (hn : t'.size = t.size) (hs : ∀ c, (t'.entry c).super = (t.entry c).super) (c : Nat) :
    t'.chain c = t.chain c := by
  induction c using Nat.strongRecOn with
  | ind c ih =>
    rw [ClassTable.chain, ClassTable.chain, hn, hs]
    split
    · rfl
    split
    · split
      · rw [ih _ ‹_›]
      · rfl
    · rfl

theorem Alike.chain (h : t.Alike t') (c : Nat) : t'.chain c = t.chain c := chain_congr h.size h.super c

theorem Alike.findMethod? (h : t.Alike t') (c : Nat) (name : Ident) : t'.findMethod? c name = t.findMethod? c name := by
  unfold ClassTable.findMethod? ancestors
  rw [h.chain]
  simp only [h.includes, h.methods]

theorem entry_modify (t : ClassTable) (id c : Nat) (f : Module → Module) :
    (t.modify id f).entry c = t.entry c ∨ (t.modify id f).entry c = f (t.entry c) := by
  unfold entry modify
  rw [Array.getD_eq_getD_getElem?, Array.getD_eq_getD_getElem?, Array.getElem?_modify]
  split
  · cases t.modules[c]? with
    | none => exact .inl rfl
    | some e => exact .inr rfl
  · exact .inl rfl

theorem entry_modify_of_ne (t : ClassTable) {id c : Nat} (h : c ≠ id) (f : Module → Module) :
    (t.modify id f).entry c = t.entry c := by
  unfold entry modify
  rw [Array.getD_eq_getD_getElem?, Array.getD_eq_getD_getElem?, Array.getElem?_modify, if_neg (Ne.symm h)]

theorem size_modify (t : ClassTable) (id : Nat) (f : Module → Module) : (t.modify id f).size = t.size :=
  Array.size_modify

theorem alike_modify (t : ClassTable) (id : Nat) {f : Module → Module} (hs : ∀ e, (f e).super = e.super)
    (hi : ∀ e, (f e).includes = e.includes) (hm : ∀ e, (f e).methods = e.methods) : t.Alike (t.modify id f) where
  size := size_modify t id f
  super c := by rcases entry_modify t id c f with h | h <;> simp [h, hs]
  includes c := by rcases entry_modify t id c f with h | h <;> simp [h, hi]
  methods c := by rcases entry_modify t id c f with h | h <;> simp [h, hm]

theorem alike_ivarSlot (t : ClassTable) (c : Nat) (ivar : Ident) : t.Alike (t.ivarSlot c ivar).2 := by
  unfold ivarSlot
  split
  · exact Alike.rfl
  · exact alike_modify t c (fun _ => rfl) (fun _ => rfl) fun _ => rfl

end ClassTable

/-! ## Caches of call sites -/

namespace Cache.Inline

variable {c : Inline} {cls : Nat} {fn : FnId} {v : UInt64} {P : Nat → FnId → Prop}

/-- Every class that is remembered has its method. -/
def Holds (P : Nat → FnId → Prop) (c : Inline) : Prop := ∀ x ∈ c.entries, P x.1 x.2

theorem mem_of_find? (h : c.find? cls = some fn) : (cls, fn) ∈ c.entries := by
  unfold find? at h
  obtain ⟨x, hx, rfl⟩ := Option.map_eq_some_iff.mp h
  have : x.1 = cls := by simpa using List.find?_some hx
  subst this
  exact List.mem_of_find?_eq_some hx

theorem version_lookup (c : Inline) (cls : Nat) (v : UInt64) : (c.lookup cls v).2.version = v := by
  unfold lookup
  split
  · rfl
  · rename_i h
    rw [ne_eq, not_not] at h
    repeat' split
    all_goals exact h

theorem holds_lookup (h : c.version = v → c.Holds P) (cls : Nat) : (c.lookup cls v).2.Holds P := by
  unfold lookup
  split
  · intro x hx
    simp [miss, clear] at hx
  · rename_i hv
    rw [ne_eq, not_not] at hv
    repeat' split
    all_goals exact h hv

theorem lookup_hit (h : (c.lookup cls v).1 = some fn) : c.version = v ∧ (cls, fn) ∈ c.entries := by
  unfold lookup at h
  split at h
  · cases h
  · rename_i hv
    rw [ne_eq, not_not] at hv
    repeat' split at h
    all_goals first | cases h; exact ⟨hv, mem_of_find? ‹_›⟩ | cases h

theorem holds_add (h : c.Holds P) (hf : P cls fn) : (c.add cls fn).Holds P := by
  have snoc : ∀ x ∈ c.entries ++ [(cls, fn)], P x.1 x.2 := by
    intro x hx
    rcases List.mem_append.mp hx with hx | hx
    · exact h x hx
    · rw [List.mem_singleton.mp hx]
      exact hf
  unfold add
  split
  · intro x hx
    rw [List.mem_singleton.mp hx]
    exact hf
  · split
    · exact h
    · exact snoc
  · split
    · exact h
    split
    · exact snoc
    · intro x hx
      simp at hx
  · exact h

theorem version_add (c : Inline) (cls : Nat) (fn : FnId) : (c.add cls fn).version = c.version := by
  unfold add
  repeat' split
  all_goals rfl

theorem version_update (h : c.version = v) (cls : Nat) (fn : FnId) : (c.update cls fn v).version = v := by
  unfold update
  repeat' split
  · exact h
  · exact version_add ..
  · exact (version_add ..).trans h

theorem holds_update (hv : c.version = v) (h : c.Holds P) (hf : P cls fn) : (c.update cls fn v).Holds P := by
  unfold update
  repeat' split
  · exact h
  · exact absurd hv ‹_›
  · exact holds_add h hf

end Cache.Inline

/-! ## What a machine remembers -/

namespace Machine

/-- `names` tells what name the cache of each call site is used for. -/
structure Cached (names : FnId → Nat → Ident) (m : Machine) : Prop where
  lookups : ∀ e ∈ m.lookups.entries, e.version ≤ m.version ∧
    (e.version = m.version → e.result = m.classes.findMethod? e.cls e.name)
  sites : ∀ fn f, m.functions.find? fn = some f → ∀ i (c : Cache.Inline), f.sites[i]? = some c →
    c.version ≤ m.version ∧
    (c.version = m.version → c.Holds fun cls g => m.classes.findMethod? cls (names fn i) = some g)

variable {names : FnId → Nat → Ident} {m : Machine}

open Exec

/-- A lookup finds what the class tables say and remembers it. -/
theorem Cached.findMethod? (h : m.Cached names) (cls : Nat) (name : Ident) :
    ∃ l, Exec.findMethod? cls name m = .ok (m.classes.findMethod? cls name) { m with lookups := l } ∧
      Cached names { m with lookups := l } := by
  unfold Exec.findMethod?
  rw [modifyGet_apply]
  dsimp only
  split
  · rename_i e he
    obtain ⟨he, hv⟩ := Option.filter_eq_some_iff.mp he
    have hmem := List.mem_of_find?_eq_some he
    have hkey : e.cls = cls ∧ e.name = name := by simpa using List.find?_some he
    have hr := (h.lookups e hmem).2 (by simpa using hv)
    rw [hkey.1, hkey.2] at hr
    exact ⟨{ m.lookups with hits := m.lookups.hits + 1 }, by rw [hr], { h with }⟩
  · refine ⟨_, rfl, { h with lookups := fun e he => ?_ }⟩
    rcases List.mem_cons.mp he with rfl | he
    · exact ⟨UInt64.le_refl _, fun _ => rfl⟩
    · exact h.lookups e (List.mem_filter.mp he).1

/-- The cache of a call site is replaced by one that is right. -/
theorem Cached.setSite (h : m.Cached names) (fn : FnId) (i : Nat) {c : Cache.Inline} (hv : c.version = m.version)
    (hc : c.Holds fun cls g => m.classes.findMethod? cls (names fn i) = some g) :
    Cached names { m with functions := m.functions.modify fn fun f => { f with sites := f.sites.setIfInBounds i c } } := by
  refine { h with sites := fun fn' f' hf' i' c' hc' => ?_ }
  rw [FunctionTable.find?_modify] at hf'
  split at hf'
  · subst fn'
    obtain ⟨f, hf, rfl⟩ := Option.map_eq_some_iff.mp hf'
    dsimp only at hc'
    rw [Array.getElem?_setIfInBounds] at hc'
    split at hc'
    · subst i'
      split at hc'
      · cases hc'
        exact ⟨hv ▸ UInt64.le_refl _, fun _ => hc⟩
      · cases hc'
    · exact h.sites fn f hf i' c' hc'
  · exact h.sites fn' f' hf' i' c' hc'

theorem function_apply (fn : FnId) (m : Machine) : Exec.function fn m = match m.functions.find? fn with
    | some f => .ok f m
    | none => .error (.invalidFunction fn) m := by
  unfold Exec.function FunctionTable.get
  rw [bind_apply, get_apply]
  dsimp only
  cases m.functions.find? fn <;> rfl

/-- Without a cache at the call site there is no lookup. -/
theorem findMethodAt?_error {fn : FnId} {i : Nat} (h : ∀ f, m.functions.find? fn = some f → f.sites[i]? = none)
    (cls : Nat) (name : Ident) : ∃ d, Exec.findMethodAt? fn i cls name m = .error d m := by
  unfold Exec.findMethodAt?
  rw [bind_apply, function_apply]
  cases hf : m.functions.find? fn with
  | none => exact ⟨_, rfl⟩
  | some f =>
    dsimp only
    rw [h f hf]
    exact ⟨_, rfl⟩

/-- A lookup through the cache of a call site finds what the class tables say and remembers it. -/
theorem Cached.findMethodAt? (h : m.Cached names) {fn : FnId} {f : Function} {i : Nat} {c : Cache.Inline}
    (hf : m.functions.find? fn = some f) (hc : f.sites[i]? = some c) (cls : Nat) :
    ∃ m', Exec.findMethodAt? fn i cls (names fn i) m = .ok (m.classes.findMethod? cls (names fn i)) m' ∧
      m'.classes = m.classes ∧ m'.version = m.version ∧ m'.functions.size = m.functions.size ∧ m'.Cached names := by
  have hsite := h.sites fn f hf i c hc
  have hv := c.version_lookup cls m.version
  have hl := Cache.Inline.holds_lookup hsite.2 cls
  have hhit (g : FnId) : (c.lookup cls m.version).1 = some g → _ := Cache.Inline.lookup_hit
  unfold Exec.findMethodAt?
  rw [bind_apply, function_apply, hf]
  simp only [hc, bind_apply, get_apply]
  generalize c.lookup cls m.version = r at hv hl hhit
  obtain ⟨hit, cache⟩ := r
  dsimp only at hv hl hhit
  have h1 := h.setSite fn i hv hl
  simp only [Exec.setSite, modify_apply]
  cases hit with
  | some g =>
    obtain ⟨hcv, hmem⟩ := hhit g rfl
    rw [hsite.2 hcv _ hmem]
    exact ⟨_, rfl, rfl, rfl, FunctionTable.size_modify .., h1⟩
  | none =>
    obtain ⟨l, hfind, h2⟩ := h1.findMethod? cls (names fn i)
    dsimp only
    rw [bind_apply, hfind]
    dsimp only
    cases hr : m.classes.findMethod? cls (names fn i) with
    | none => exact ⟨_, rfl, rfl, rfl, FunctionTable.size_modify .., h2⟩
    | some g =>
      refine ⟨_, rfl, rfl, rfl, ?_, ?_⟩
      · exact (FunctionTable.size_modify ..).trans (FunctionTable.size_modify ..)
      · exact h2.setSite fn i (Cache.Inline.version_update hv cls g) (Cache.Inline.holds_update hv hl hr)

end Machine

end RubyMachine
