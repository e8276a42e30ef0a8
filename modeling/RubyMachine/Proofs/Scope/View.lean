import RubyMachine.Proofs.Scope.Chains

/-! Code reads what is seen: the receiver and the locals of every environment of a chain. -/

namespace RubyMachine

open Exec Scope

/-- The receiver and the local slots of the environment some scopes out from a frame. -/
def Exec.view (frame depth : Nat) : Exec Layer := do
  let e ← outerEnv frame depth
  return ⟨← e.self, ← e.locals⟩

namespace Machine

variable {m m' : Machine} {fs : List Nat} {v top : Value} {s : Scope} {l : Layer} {ls : List Layer}

theorem mapM_apply {α β : Type} {g : α → Exec β} {h : α → β} {xs : List α} (hg : ∀ x ∈ xs, g x m = .ok (h x) m) :
    xs.mapM g m = .ok (xs.map h) m := by
  induction xs with
  | nil => rfl
  | cons x xs ih =>
    rw [List.mapM_cons, bind_of_ok (hg x List.mem_cons_self), bind_of_ok (ih fun y hy => hg y (List.mem_cons_of_mem x hy))]
    rfl

/-- Reading an environment gives the receiver, the locals and the word for what is around it. -/
structure Reads (m : Machine) (e : Env) (l : Layer) (outer : Value) : Prop where
  self : e.self m = .ok l.self m
  locals : e.locals m = .ok l.locals m
  outer : e.outer m = .ok outer m

theorem reads_frame {f : Nat} (hp : m.Placed f) (hc : m.isCode f = true) :
    m.Reads (.stack f) (m.layerAt f) (m.slot (f + 4)) := by
  obtain ⟨hflags, hlow, hhigh⟩ := hp
  rw [frameEnd_code hc] at hhigh
  have hcount : (Env.stack f).slotCount m = .ok (m.slotsAt f : Int) m :=
    slotCount_of (word_apply_of (k := f + 2) rfl (by omega)) hflags
  refine ⟨word_apply_of (by omega) (by omega), ?_, word_apply_of rfl (by omega)⟩
  rw [Env.locals, bind_of_ok hcount, Int.toNat_natCast]
  refine mapM_apply fun i hi => ?_
  have := List.mem_range.1 hi
  exact word_apply_of (by omega) (by omega)

theorem scope_wordAt (hs : m.scope? v = some s) (hv : s.Shaped v) {i : Int} {k : Nat} (hi : i = k) (hk : k < 8) :
    (Env.heap v).wordAt i m = .ok (s.word k) m :=
  wordAt_heap hs (by omega) (by have := hv.size; omega)

theorem slotCount_scope (hs : m.scope? v = some s) (hv : s.Shaped v) :
    (Env.heap v).slotCount m = .ok (s.slotCount : Int) m :=
  slotCount_of (scope_wordAt hs hv (k := 2) rfl (by decide)) hv.flags

theorem localAt_scope (hs : m.scope? v = some s) (hv : s.Shaped v) {i : Nat} (hi : i < s.slotCount) :
    (Env.heap v).localAt i m = .ok (s.slot i) m := by
  have := hv.base
  have := hv.size
  rw [Env.localAt, bind_of_ok (slotCount_scope hs hv)]
  exact wordAt_heap hs (by omega) (by omega)

theorem reads_scope (hs : m.scope? v = some s) (hv : s.Shaped v) : m.Reads (.heap v) s.layer (s.word 4) := by
  have hb := hv.base
  have hz := hv.size
  refine ⟨wordAt_heap hs (by omega) (by omega), ?_, scope_wordAt hs hv rfl (by decide)⟩
  rw [Env.locals, bind_of_ok (slotCount_scope hs hv), Int.toNat_natCast]
  refine mapM_apply fun i hi => ?_
  have := List.mem_range.1 hi
  exact wordAt_heap hs (by omega) (by omega)

theorem envAt_frame {f : Nat} (hv : v.isFrame = true) (hf : f = v.toFrame) (hp : m.Placed f) (hc : m.isCode f = true)
    (hr : (m.slot (f + 1)).isRef = false) : envAt v m = .ok (.stack f) m := by
  have := hp.high
  rw [frameEnd_code hc] at this
  subst hf
  have hep : word (v.toFrame + Frame.envWord) m = .ok (m.slot (v.toFrame + 1)) m := word_apply_of rfl (by omega)
  rw [envAt, if_pos hv, bind_of_ok hep, if_neg (by rw [hr]; decide)]
  rfl

theorem envAt_moved {f : Nat} (hv : v.isFrame = true) (hf : f = v.toFrame) (hp : m.Placed f) (hc : m.isCode f = true)
    (hs : m.scope? (m.slot (f + 1)) = some s) : envAt v m = .ok (.heap (m.slot (f + 1))) m := by
  have := hp.high
  rw [frameEnd_code hc] at this
  subst hf
  have hep : word (v.toFrame + Frame.envWord) m = .ok (m.slot (v.toFrame + 1)) m := word_apply_of rfl (by omega)
  rw [envAt, if_pos hv, bind_of_ok hep, if_pos (isRef_of_scope? hs), bind_of_ok (asScope_apply hs)]
  rfl

theorem envAt_scope (hs : m.scope? v = some s) : envAt v m = .ok (.heap v) m := by
  have hr := isRef_of_scope? hs
  rw [envAt, if_neg (by rw [Value.isFrame_of_isRef hr]; decide), if_pos hr, bind_of_ok (asScope_apply hs)]
  rfl

theorem Sees.envAt (hw : m.WellFormed fs) (h : m.Sees fs v (l :: ls)) :
    ∃ e o, envAt v m = .ok e m ∧ m.Reads e l o ∧ m.Sees fs o ls := by
  generalize hls : l :: ls = ks at h
  cases h with
  | nil _ => cases hls
  | frame hv hc hr ho =>
    cases hls
    have hp := hw.frames.placed hc.1
    exact ⟨_, _, envAt_frame hv rfl hp hc.2 hr, reads_frame hp hc.2, ho⟩
  | moved hv hc hr ho =>
    obtain ⟨top, ht⟩ := (hw.linked _ hc).copy hr
    obtain ⟨s, hs, hsh, -⟩ := ht.scope
    obtain ⟨-, ls', he, ho'⟩ := ho.of_scope hs
    cases hls.trans he
    exact ⟨_, _, envAt_moved hv rfl (hw.frames.placed hc.1) hc.2 hs, reads_scope hs hsh, ho'⟩
  | scope hs hsh ho =>
    cases hls
    exact ⟨_, _, envAt_scope hs, reads_scope hs hsh, ho⟩

/-- The environments of a chain are read one by one, and there is none past its end. -/
theorem Sees.go (hw : m.WellFormed fs) {e : Env} {o : Value} (hr : m.Reads e l o) (ho : m.Sees fs o ls) (depth : Nat) :
    (∃ e' l' o', (l :: ls)[depth]? = some l' ∧ outerEnv.go depth e m = .ok e' m ∧ m.Reads e' l' o') ∨
    (l :: ls)[depth]? = none ∧ outerEnv.go depth e m = .error (.noOuterScope (depth - ls.length : Nat)) m := by
  induction depth generalizing e o l ls with
  | zero => exact .inl ⟨e, l, o, rfl, rfl, hr⟩
  | succ n ih =>
    rw [List.getElem?_cons_succ, outerEnv.go, bind_of_ok hr.outer]
    cases ls with
    | nil =>
      cases ho with
      | nil hn =>
        rw [if_pos hn]
        exact .inr ⟨rfl, rfl⟩
      | moved hv hc hr ho =>
        obtain ⟨top, ht⟩ := (hw.linked _ hc).copy hr
        obtain ⟨s, hs, -⟩ := ht.scope
        obtain ⟨-, _, he, -⟩ := ho.of_scope hs
        cases he
    | cons l' ls' =>
      obtain ⟨e', o', he, hr', ho'⟩ := ho.envAt hw
      have hn : o.isNil = false := by
        cases hn : o.isNil with
        | false => rfl
        | true => cases ho.nil_iff hn
      rw [if_neg (by rw [hn]; decide)]
      dsimp only
      rw [bind_of_ok he, List.length_cons, Nat.add_sub_add_right]
      exact ih hr' ho'

theorem Sees.ne_nil (h : m.Sees fs v ls) (hv : v.isFrame = true) : ls ≠ [] := by
  rintro rfl
  rcases h.of_frame hv with ⟨-, _, he, -⟩ | ⟨hr, ho⟩
  · cases he
  · cases ho with
    | nil hn => rw [Value.isNil_of_isRef hr] at hn; cases hn
    | moved hf => rw [Value.isFrame_of_isRef hr] at hf; cases hf

/-- From a frame every layer that is seen can be read, and nothing past the last one. -/
theorem Sees.view {f : Nat} (hw : m.WellFormed fs) (h : m.Sees fs (.frameAt f) ls) (depth : Nat) :
    (∃ l, ls[depth]? = some l ∧ Exec.view f depth m = .ok l m) ∨
    ls[depth]? = none ∧ Exec.view f depth m = .error (.noOuterScope (depth + 1 - ls.length : Nat)) m := by
  obtain ⟨l, ls, rfl⟩ := List.exists_cons_of_ne_nil (h.ne_nil (Value.isFrame_frameAt f))
  obtain ⟨e, o, he, hr, ho⟩ := h.envAt hw
  have hgo : outerEnv f depth m = outerEnv.go depth e m := by
    rw [outerEnv, frameEnv, bind_of_ok he]
  rcases Sees.go hw hr ho depth with ⟨e', l', o', hl, hrun, hr'⟩ | ⟨hl, hrun⟩
  · refine .inl ⟨l', hl, ?_⟩
    rw [Exec.view, bind_of_ok (hgo.trans hrun), bind_of_ok hr'.self, bind_of_ok hr'.locals]
    rfl
  · refine .inr ⟨hl, ?_⟩
    rw [Exec.view, bind_of_error (hgo.trans hrun), List.length_cons, Nat.add_sub_add_right]

/-! ## One memory -/

/-- A local that is written through a reference to a scope is read through it. -/
theorem setLocalAt_scope (hi : m.heap.Inv) (hs : m.scope? v = some s) (hv : s.Shaped v) {i : Nat}
    (hlt : i < s.slotCount) (x : Value) : ∃ m', (Env.heap v).setLocalAt i x m = .ok () m' ∧
      (Env.heap v).localAt i m' = .ok x m' ∧ m'.context = m.context ∧ ∃ s', m'.scope? v = some s' := by
  have hb := hv.base
  have hz := hv.size
  obtain ⟨m', hrun, hr⟩ := setWordAt_heap (x := x) (i := i - s.slotCount - 1) (k := i + 1) hi hs (by omega) (by omega)
  have hflag : (s.put (i + 1) x).word 2 = s.word 2 := by
    rw [Scope.word, base_put, getD_put (by omega), if_neg (by omega), Scope.word]
  have hget := wordAt_heap (k := i + 1) hr.here (i := i - s.slotCount - 1) (by rw [base_put]; omega)
    (by rw [size_put]; omega)
  refine ⟨m', ?_, ?_, hr.context, _, hr.here⟩
  · rw [Env.setLocalAt, bind_of_ok (slotCount_scope hs hv), hrun]
  · have hcount : (Env.heap v).slotCount m' = .ok (s.slotCount : Int) m' := by
      rw [Scope.slotCount, ← hflag]
      exact slotCount_of (wordAt_heap hr.here (k := s.base + 2) rfl (by rw [size_put]; omega)) (hflag ▸ hv.flags)
    rw [Env.localAt, bind_of_ok hcount, hget, getD_put (by omega), if_pos rfl]

end Machine

end RubyMachine
