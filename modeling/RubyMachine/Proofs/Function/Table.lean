import Mathlib.Tactic
import RubyMachine.Function.Basic

/-! Tables of functions: what is found after functions are changed or added. -/

namespace RubyMachine.FunctionTable

variable {t : FunctionTable} {fn : FnId}

theorem size_modify (t : FunctionTable) (fn : FnId) (g : Function → Function) : (t.modify fn g).size = t.size := by
  unfold FunctionTable.modify
  split
  · rfl
  · exact Array.size_modify

theorem find?_modify (t : FunctionTable) (fn fn' : FnId) (g : Function → Function) :
    (t.modify fn g).find? fn' = if fn = fn' then (t.find? fn').map g else t.find? fn' := by
  obtain ⟨i⟩ := fn
  obtain ⟨j⟩ := fn'
  unfold modify find?
  dsimp only
  by_cases hi : i = 0
  · subst hi
    by_cases hj : j = 0
    · simp [hj]
    · simp [hj, Ne.symm hj]
  · by_cases hj : j = 0
    · simp [hj]
    · have h0 {k : UInt32} (h : k ≠ 0) : 0 < k.toNat := by
        rcases Nat.eq_zero_or_pos k.toNat with h' | h'
        · exact absurd (UInt32.toNat_inj.mp h') h
        · exact h'
      have hij : i.toNat - 1 = j.toNat - 1 ↔ i = j := by
        have := h0 hi
        have := h0 hj
        rw [← UInt32.toNat_inj]
        omega
      simp only [hi, hj, if_false, Array.getElem?_modify, hij, FnId.mk.injEq]

theorem find?_add {t : FunctionTable} {f f' : Function} {fn : FnId} (h : (t.add f).2.find? fn = some f') :
    t.find? fn = some f' ∨ f' = f := by
  unfold add find? at *
  dsimp only at h
  split at h
  · cases h
  · rw [if_neg ‹_›]
    rw [Array.getElem?_push] at h
    split at h
    · exact .inr (Option.some.inj h).symm
    · exact .inl h

theorem find?_append {more : Array Function} {f : Function} (h : t.find? fn = some f) :
    FunctionTable.find? ⟨t.functions ++ more⟩ fn = some f := by
  unfold FunctionTable.find? at *
  split_ifs at h ⊢
  rw [Array.getElem?_append_left (Array.getElem?_eq_some_iff.1 h).1, h]

theorem sequence_eq_ok {seq : Code.Sequence} : t.sequence fn = .ok seq ↔ ∃ f, t.find? fn = some f ∧ f.body = .code seq := by
  unfold sequence get
  cases t.find? fn with
  | none => simp [bind, Except.bind]
  | some f =>
    obtain ⟨_, body⟩ := f
    cases body <;> simp [bind, Except.bind, pure, Except.pure, throw, throwThe, MonadExceptOf.throw]

/-! ## Other code -/

/-- The function that comes after those of `before` is changed. -/
theorem modify_next (before : Array Function) (f : Function) (fs : List Function) (g : Function → Function) :
    (before ++ (f :: fs).toArray).modify before.size g = before.push (g f) ++ fs.toArray := by
  refine Array.ext_getElem? fun i => ?_
  simp only [Array.getElem?_modify, Array.getElem?_append, Array.getElem?_push, Array.size_push, List.getElem?_toArray,
    List.getElem?_cons]
  grind

/-- A function whose code was exchanged was a function with the same caches. -/
theorem sequence_withCode {i : Nat} {code : Bytes} {seq : Code.Sequence}
    (h : FunctionTable.sequence ⟨t.functions.modify i (·.withCode code)⟩ fn = .ok seq) :
    ∃ seq', t.sequence fn = .ok seq' ∧ seq'.methodSites = seq.methodSites ∧ seq'.constSites = seq.constSites := by
  obtain ⟨f', hf', hb⟩ := sequence_eq_ok.1 h
  unfold find? at hf'
  split at hf'
  · cases hf'
  rename_i hfn
  have found {f : Function} (hf : t.functions[fn.id.toNat - 1]? = some f) {q : Code.Sequence} (hq : f.body = .code q) :
      t.sequence fn = .ok q := sequence_eq_ok.2 ⟨f, by rw [find?, if_neg hfn, hf], hq⟩
  rw [Array.getElem?_modify] at hf'
  split at hf'
  · obtain ⟨f, hf, rfl⟩ := Option.map_eq_some_iff.1 hf'
    obtain ⟨name, body, arity, owner, sites, consts⟩ := f
    cases body with
    | code q =>
      cases hb
      exact ⟨q, found hf rfl, rfl, rfl⟩
    | builtin b => cases hb
    | attrReader ivar => cases hb
    | attrWriter ivar => cases hb
  · exact ⟨seq, found hf' hb, rfl, rfl⟩

end RubyMachine.FunctionTable
