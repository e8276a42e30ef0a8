import RubyMachine.Proofs.Scope.View

/-! Homes: the environments at the ends of chains. Each frame has a method link, which is compared with the frames
of methods when a block returns from its method. The link is good for that whether it names the place of a frame or
its copy on the heap. -/

namespace RubyMachine

open Exec

namespace Machine

variable {m m' : Machine} {fs : List Nat} {e h : Env} {f g : Nat} {o v w top : Value}

/-! ## Ends of chains -/

/-- The chain of an environment ends at `h`. -/
def EndsAt (m : Machine) (e h : Env) : Prop :=
  ∃ depth o, outerEnv.go depth e m = .ok h m ∧ h.outer m = .ok o m ∧ o.isNil = true

/-- The chain of the environment of a frame ends at `h`. -/
def Home (m : Machine) (f : Nat) (h : Env) : Prop :=
  ∃ depth o, outerEnv f depth m = .ok h m ∧ h.outer m = .ok o m ∧ o.isNil = true

theorem EndsAt.here (ho : e.outer m = .ok o m) (hn : o.isNil = true) : m.EndsAt e e := ⟨0, o, rfl, ho, hn⟩

theorem EndsAt.outer {e' : Env} (ho : e.outer m = .ok o m) (hn : o.isNil = false) (he : envAt o m = .ok e' m)
    (h' : m.EndsAt e' h) : m.EndsAt e h := by
  obtain ⟨depth, o', hgo, ho', hn'⟩ := h'
  refine ⟨depth + 1, o', ?_, ho', hn'⟩
  rw [outerEnv.go, bind_of_ok ho, if_neg (by rw [hn]; decide)]
  exact (bind_of_ok he).trans hgo

theorem EndsAt.home (he : frameEnv f m = .ok e m) (h' : m.EndsAt e h) : m.Home f h := by
  obtain ⟨depth, o, hgo, ho⟩ := h'
  exact ⟨depth, o, (bind_of_ok he).trans hgo, ho⟩

theorem Enclosed.ends (hv : m.Enclosed v top) : m.EndsAt (.heap v) (.heap top) := by
  induction hv with
  | method hs hsh hn _ => exact .here (scope_wordAt hs hsh (k := 4) rfl (by decide)) hn
  | block hs hsh ho _ ih =>
    obtain ⟨s', hs', -⟩ := ho.scope
    exact .outer (scope_wordAt hs hsh (k := 4) rfl (by decide)) (Value.isNil_of_isRef ho.isRef) (envAt_scope hs') ih

theorem Enclosed.envAt (hv : m.Enclosed v top) : envAt v m = .ok (.heap v) m := by
  obtain ⟨s, hs, -⟩ := hv.scope
  exact envAt_scope hs

theorem Enclosed.method_apply (hv : m.Enclosed v top) : (Env.heap v).method m = .ok top m := by
  obtain ⟨s, hs, hsh, rfl⟩ := hv.scope
  exact scope_wordAt hs hsh (k := 3) rfl (by decide)

/-- A chain has one end. -/
theorem outerEnv_go_unique {depth depth' : Nat} {e h h' : Env} {m' : Machine} {o o' : Value}
    (hgo : outerEnv.go depth e m' = .ok h m) (hgo' : outerEnv.go depth' e m' = .ok h' m) (ho : h.outer m = .ok o m)
    (ho' : h'.outer m = .ok o' m) (hn : o.isNil = true) (hn' : o'.isNil = true) : h = h' := by
  -- The chain does not go on past an end.
  have stops {n : Nat} {e h : Env} {o : Value} (hgo : outerEnv.go (n + 1) e m = .ok h m) (ho : e.outer m = .ok o m)
      (hn : o.isNil = true) : False := by
    rw [outerEnv.go, bind_of_ok ho, if_pos hn] at hgo
    cases hgo
  induction depth generalizing depth' e m' with
  | zero =>
    cases hgo
    cases depth' with
    | zero =>
      cases hgo'
      rfl
    | succ n => exact (stops hgo' ho hn).elim
  | succ depth ih =>
    cases depth' with
    | zero =>
      cases hgo'
      exact (stops hgo ho' hn').elim
    | succ n =>
      obtain ⟨v, m₁, hv, hgo⟩ := exists_of_bind hgo
      obtain ⟨_, _, hv', hgo'⟩ := exists_of_bind hgo'
      cases hv.symm.trans hv'
      cases hnil : v.isNil with
      | true =>
        rw [if_pos hnil] at hgo
        cases hgo
      | false =>
        rw [if_neg (by rw [hnil]; decide)] at hgo hgo'
        obtain ⟨e₁, m₂, he, hgo⟩ := exists_of_bind hgo
        obtain ⟨_, _, he', hgo'⟩ := exists_of_bind hgo'
        cases he.symm.trans he'
        exact ih hgo hgo'

theorem Home.unique {h' : Env} (hh : m.Home f h) (hh' : m.Home f h') : h = h' := by
  obtain ⟨depth, o, hgo, ho, hn⟩ := hh
  obtain ⟨depth', o', hgo', ho', hn'⟩ := hh'
  obtain ⟨e, m', he, hgo⟩ := exists_of_bind hgo
  obtain ⟨_, _, he', hgo'⟩ := exists_of_bind hgo'
  cases he.symm.trans he'
  exact outerEnv_go_unique hgo hgo' ho ho' hn hn'

/-! ## Method links -/

/-- The environment that a word names: a frame of the running stack, or its copy when it was moved, or a scope. -/
def envOf (m : Machine) (v : Value) : Env :=
  if v.isFrame then
    if (m.slot (v.toFrame + 1)).isRef then .heap (m.slot (v.toFrame + 1)) else .stack v.toFrame
  else .heap v

/-- The word that an environment leads to its method with. -/
def linkOf (m : Machine) : Env → Value
  | .stack f => m.slot (f + 3)
  | .heap v => ((m.scope? v).map fun s => s.word 3).getD .nil

/-- A word that leads to an environment: to that of a code frame of the running stack, or to a complete scope. -/
def Leads (m : Machine) (fs : List Nat) (v : Value) : Prop :=
  v.isFrame = true ∧ m.CodeFrame fs v.toFrame ∨ ∃ top, m.Enclosed v top

/-- The same, with a frame that is named as calls name it and does not lie above another one. -/
def Names (m : Machine) (fs : List Nat) (f : Nat) (v : Value) : Prop :=
  (∃ g, v = .frameAt g ∧ m.CodeFrame fs g ∧ g ≤ f) ∨ ∃ top, m.Enclosed v top

theorem Names.mono (hv : m.Names fs g v) (hle : g ≤ f) : m.Names fs f v :=
  hv.imp_left fun ⟨k, hk, hc, hlt⟩ => ⟨k, hk, hc, hlt.trans hle⟩

theorem envOf_frameAt (hn : (Value.frameAt f).toFrame = f) :
    m.envOf (.frameAt f) = if (m.slot (f + 1)).isRef then .heap (m.slot (f + 1)) else .stack f := by
  rw [envOf, if_pos (Value.isFrame_frameAt f), hn]

theorem envOf_of_isRef (hr : v.isRef = true) : m.envOf v = .heap v := by
  rw [envOf, if_neg (by rw [Value.isFrame_of_isRef hr]; decide)]

theorem Enclosed.linkOf (hv : m.Enclosed v top) : m.linkOf (.heap v) = top := by
  obtain ⟨s, hs, -, rfl⟩ := hv.scope
  rw [Machine.linkOf, hs]
  rfl

namespace WellFormed

variable (hw : m.WellFormed fs)

include hw

theorem leads_of_names (hv : m.Names fs f v) : m.Leads fs v := by
  rcases hv with ⟨g, rfl, hg, -⟩ | ht
  · exact .inl ⟨Value.isFrame_frameAt g, (hw.linked g hg).named.symm ▸ hg⟩
  · exact .inr ht

theorem leads_outer (hf : m.CodeFrame fs f) : (m.slot (f + 4)).isNil = true ∨ m.Leads fs (m.slot (f + 4)) :=
  (hw.linked f hf).outer.imp_right (Or.imp_left fun h => ⟨h.1, h.2.1⟩)

theorem stack_wordAt (hf : m.CodeFrame fs f) {i : Int} {k : Nat} (hi : i = k) (hk : k < 8) :
    (Env.stack f).wordAt i m = .ok (m.slot (f + k)) m := by
  have := (hw.frames.placed hf.1).high
  rw [frameEnd_code hf.2] at this
  exact word_apply_of (by omega) (by omega)

/-- The environment that a word leads to is read, and the word for its method. -/
theorem reads_env (hv : m.Leads fs v) :
    envAt v m = .ok (m.envOf v) m ∧ (m.envOf v).method m = .ok (m.linkOf (m.envOf v)) m := by
  rcases hv with ⟨hf, hc⟩ | ⟨top, ht⟩
  · have hp := hw.frames.placed hc.1
    cases hr : (m.slot (v.toFrame + 1)).isRef with
    | false =>
      have he : m.envOf v = .stack v.toFrame := by rw [envOf, if_pos hf, if_neg (by rw [hr]; decide)]
      rw [he]
      exact ⟨envAt_frame hf rfl hp hc.2 hr, hw.stack_wordAt hc rfl (by decide)⟩
    | true =>
      have he : m.envOf v = .heap (m.slot (v.toFrame + 1)) := by rw [envOf, if_pos hf, if_pos hr]
      obtain ⟨top, ht⟩ := (hw.linked _ hc).copy hr
      obtain ⟨s, hs, -⟩ := ht.scope
      rw [he, ht.linkOf]
      exact ⟨envAt_moved hf rfl hp hc.2 hs, ht.method_apply⟩
  · rw [envOf_of_isRef ht.isRef, ht.linkOf]
    exact ⟨ht.envAt, ht.method_apply⟩

theorem leads_frame (hf : m.CodeFrame fs f) : m.Leads fs (.frameAt f) := hw.leads_of_names (.inl ⟨f, rfl, hf, le_rfl⟩)

theorem frameEnv_apply (hf : m.CodeFrame fs f) : frameEnv f m = .ok (m.envOf (.frameAt f)) m :=
  (hw.reads_env (hw.leads_frame hf)).1

theorem frameEnv_iff (hf : m.CodeFrame fs f) : frameEnv f m = .ok h m ↔ m.envOf (.frameAt f) = h := by
  rw [hw.frameEnv_apply hf]
  exact ⟨fun he => (EStateM.Result.ok.inj he).1, fun he => he ▸ rfl⟩

end WellFormed

/-- The method link of a code frame is as calls write it: that of code that is nested in nothing names the frame
itself, and others name what the link of the environment around names. -/
structure Homed (m : Machine) (fs : List Nat) (f : Nat) : Prop where
  alone : (m.slot (f + 4)).isNil = true → m.slot (f + 3) = .frameAt f
  nested : (m.slot (f + 4)).isNil = false → m.Names fs f (m.slot (f + 3)) ∧
    m.envOf (m.slot (f + 3)) = m.envOf (m.linkOf (m.envOf (m.slot (f + 4))))

/-- The frames of the running stack are well formed and have good method links, and no two of them have been moved
to the same place. -/
structure Housed (m : Machine) (fs : List Nat) : Prop extends m.WellFormed fs where
  homed : ∀ f, m.CodeFrame fs f → m.Homed fs f
  apart : ∀ f g, m.CodeFrame fs f → m.CodeFrame fs g → (m.slot (f + 1)).isRef = true →
    m.slot (f + 1) = m.slot (g + 1) → f = g

/-- The word that a frame leads to its method with. -/
def methodOf (m : Machine) (f : Nat) : Value := m.linkOf (m.envOf (.frameAt f))

/-- The method link of a frame leads to the end of its chain. The induction is on the place of the frame: what a frame is
nested in lies below it, or on the heap. -/
theorem Housed.home (hm : m.Housed fs) (hf : m.CodeFrame fs f) : m.Names fs f (m.methodOf f) ∧
    m.EndsAt (m.envOf (.frameAt f)) (m.envOf (m.methodOf f)) := by
  have hw := hm.toWellFormed
  induction f using Nat.strong_induction_on with
  | _ f ih =>
    have hl := hw.linked f hf
    rw [methodOf, envOf_frameAt hl.named]
    cases hr : (m.slot (f + 1)).isRef with
    | true =>
      obtain ⟨top, ht⟩ := hl.copy hr
      rw [if_pos rfl, ht.linkOf, envOf_of_isRef ht.outermost.isRef]
      exact ⟨.inr ⟨top, ht.outermost⟩, ht.ends⟩
    | false =>
      have houter : (Env.stack f).outer m = .ok (m.slot (f + 4)) m := hw.stack_wordAt hf rfl (by decide)
      have hh := hm.homed f hf
      rw [if_neg (by decide)]
      show m.Names fs f (m.slot (f + 3)) ∧ m.EndsAt (.stack f) (m.envOf (m.slot (f + 3)))
      cases hn : (m.slot (f + 4)).isNil with
      | true =>
        rw [hh.alone hn, envOf_frameAt hl.named, hr, if_neg (by decide)]
        exact ⟨.inl ⟨f, rfl, hf, le_rfl⟩, .here houter hn⟩
      | false =>
        obtain ⟨hnames, hlink⟩ := hh.nested hn
        have hleads := (hw.leads_outer hf).resolve_left (by rw [hn]; decide)
        refine ⟨hnames, .outer houter hn (hw.reads_env hleads).1 ?_⟩
        rw [hlink]
        rcases hl.outer with hnil | ⟨hfr, hg, hlt⟩ | ⟨top, ht⟩
        · rw [hn] at hnil
          cases hnil
        · have same : m.envOf (m.slot (f + 4)) = m.envOf (.frameAt (m.slot (f + 4)).toFrame) := by
            rw [envOf_frameAt (hw.linked _ hg).named, envOf, if_pos hfr]
          rw [same]
          exact (ih _ hlt hg).2
        · rw [envOf_of_isRef ht.isRef, ht.linkOf, envOf_of_isRef ht.outermost.isRef]
          exact ht.ends

/-! ## Frames that a link names -/

/-- Whether a word names the frame at a place, as it is compared when a call ends. -/
def isNamed (m : Machine) (v : Value) (f : Nat) : Bool := v == .frameAt f || (v.isRef && m.slot (f + 1) == v)

theorem sameFrame_apply (hf : f + 1 < m.context.stack.capacity) : sameFrame v f m = .ok (m.isNamed v f) m := by
  have hword : word (f + Frame.envWord) m = .ok (m.slot (f + 1)) m := word_apply_of rfl hf
  unfold sameFrame isNamed
  cases v == .frameAt f with
  | true => rfl
  | false =>
    cases v.isRef with
    | false => rfl
    | true => exact bind_of_ok hword

/-- No two frames have the same environment. -/
theorem Housed.frame_unique (hm : m.Housed fs) (hf : m.CodeFrame fs f) (hg : m.CodeFrame fs g)
    (he : m.envOf (.frameAt f) = m.envOf (.frameAt g)) : f = g := by
  rw [envOf_frameAt (hm.linked f hf).named, envOf_frameAt (hm.linked g hg).named] at he
  split_ifs at he with hr hr'
  · exact hm.apart f g hf hg hr (Env.heap.inj he)
  · exact Env.stack.inj he

/-- A link names exactly the frame whose environment it leads to. -/
theorem Housed.isNamed_iff (hm : m.Housed fs) (hv : m.Names fs g v) (hf : m.CodeFrame fs f) :
    m.isNamed v f = true ↔ m.envOf (.frameAt f) = m.envOf v := by
  have hnamed := (hm.linked f hf).named
  rw [isNamed, Bool.or_eq_true, Bool.and_eq_true, beq_iff_eq, beq_iff_eq]
  constructor
  · rintro (rfl | ⟨hr, rfl⟩)
    · rfl
    · rw [envOf_frameAt hnamed, if_pos hr, envOf_of_isRef hr]
  · intro he
    rcases hv with ⟨g, rfl, hg, -⟩ | ⟨top, ht⟩
    · exact .inl (congrArg _ (hm.frame_unique hg hf he.symm))
    · rw [envOf_of_isRef ht.isRef, envOf_frameAt hnamed] at he
      split_ifs at he with hr
      exact .inr ⟨ht.isRef, Env.heap.inj he⟩

/-! ## Frames that have not been moved -/

instance : Decidable (m.Placed f) :=
  decidable_of_iff ((m.slot (f + 2)).isFixnum = true ∧ m.slotsAt f < f ∧ m.frameEnd f ≤ m.context.stack.capacity)
    ⟨fun h => ⟨h.1, h.2.1, h.2.2⟩, fun h => ⟨h.flags, h.low, h.high⟩⟩

theorem frames_cons_iff {o : Option Nat} : m.Frames o (f :: fs) ↔
    o = some f ∧ m.Placed f ∧ (∀ g ∈ m.callerAt f, m.frameEnd g + m.slotsAt f + 1 ≤ f) ∧ m.Frames (m.callerAt f) fs := by
  constructor
  · intro h
    cases h with
    | cons hp hc ht => exact ⟨rfl, hp, hc, ht⟩
  · rintro ⟨rfl, hp, hc, ht⟩
    exact .cons hp hc ht

theorem frames_nil_iff {o : Option Nat} : m.Frames o [] ↔ o = none := by
  constructor
  · intro h
    cases h
    rfl
  · rintro rfl
    exact .nil

instance decidableFrames (m : Machine) : (fs : List Nat) → (o : Option Nat) → Decidable (m.Frames o fs)
  | [], _ => decidable_of_iff' _ frames_nil_iff
  | f :: fs, _ =>
    have := decidableFrames m fs (m.callerAt f)
    decidable_of_iff' _ frames_cons_iff

instance : Decidable (m.CodeFrame fs f) := inferInstanceAs (Decidable (_ ∧ _))

/-- A code frame of which there is no copy on the heap, with links to frames only. -/
def Fresh (m : Machine) (fs : List Nat) (f : Nat) : Prop :=
  (Value.frameAt f).toFrame = f ∧ (m.slot (f + 1)).isRef = false ∧
  ((m.slot (f + 4)).isNil = true ∨
    (m.slot (f + 4)).isFrame = true ∧ m.CodeFrame fs (m.slot (f + 4)).toFrame ∧ (m.slot (f + 4)).toFrame < f) ∧
  (m.slot (f + 5)).isFixnum = true ∧ (m.slot (f + 6)).isFixnum = true ∧ (m.slot (f + 7)).isNil = true

instance : Decidable (m.Fresh fs f) := inferInstanceAs (Decidable (_ ∧ _))

/-- The frames of the running stack are `fs`, and none has been moved. -/
def Unmoved (m : Machine) (fs : List Nat) : Prop :=
  m.Frames m.context.frame fs ∧ ∀ f ∈ fs, m.isCode f = true → m.Fresh fs f

instance : Decidable (m.Unmoved fs) := inferInstanceAs (Decidable (_ ∧ _))

namespace Unmoved

variable (hu : m.Unmoved fs)

include hu

theorem fresh (hc : m.CodeFrame fs f) : m.Fresh fs f := hu.2 f hc.1 hc.2

theorem wellFormed (hi : m.heap.Inv) : m.WellFormed fs := by
  refine ⟨hi, hu.1, fun f hc => ?_⟩
  obtain ⟨named, unmoved, outer, position, code, block⟩ := hu.fresh hc
  refine ⟨named, outer.imp_right .inl, .inl block, fun hr => ?_, position, code⟩
  rw [unmoved] at hr
  cases hr

theorem envOf (hv : v.isFrame = true) (hc : m.CodeFrame fs v.toFrame) : m.envOf v = .stack v.toFrame := by
  rw [Machine.envOf, if_pos hv, if_neg (by rw [(hu.fresh hc).2.1]; decide)]

theorem frameEnv (hi : m.heap.Inv) (hc : m.CodeFrame fs f) : Exec.frameEnv f m = .ok (.stack f) m := by
  rw [(hu.wellFormed hi).frameEnv_apply hc, envOf_frameAt (hu.fresh hc).1, if_neg (by rw [(hu.fresh hc).2.1]; decide)]

/-- Code that is nested in the code of a method. -/
theorem home (hi : m.heap.Inv) (hf : m.CodeFrame fs f) (hg : m.CodeFrame fs g) (ho : m.slot (f + 4) = .frameAt g)
    (hn : (m.slot (g + 4)).isNil = true) : m.Home f (.stack g) := by
  have outer {f : Nat} (hf : m.CodeFrame fs f) : (Env.stack f).outer m = .ok (m.slot (f + 4)) m :=
    (hu.wellFormed hi).stack_wordAt hf rfl (by decide)
  refine EndsAt.home (hu.frameEnv hi hf) (.outer (outer hf) (by rw [ho, Value.isNil_frameAt]) ?_ (.here (outer hg) hn))
  rw [ho]
  exact hu.frameEnv hi hg

end Unmoved

/-- The link to the method is that of the frame around. -/
def Direct (m : Machine) (f : Nat) : Prop :=
  m.slot (f + 3) = if (m.slot (f + 4)).isNil then .frameAt f else m.slot ((m.slot (f + 4)).toFrame + 3)

instance : Decidable (m.Direct f) := inferInstanceAs (Decidable (_ = _))

theorem Unmoved.housed (hu : m.Unmoved fs) (hi : m.heap.Inv) (hd : ∀ f ∈ fs, m.isCode f = true → m.Direct f) :
    m.Housed fs := by
  have hw := hu.wellFormed hi
  -- The induction is on the place of the frame: the one around lies below it.
  have link (f : Nat) (hc : m.CodeFrame fs f) : ∃ g, m.slot (f + 3) = .frameAt g ∧ m.CodeFrame fs g ∧ g ≤ f := by
    induction f using Nat.strong_induction_on with
    | _ f ih =>
      have direct := hd f hc.1 hc.2
      rcases (hu.fresh hc).2.2.1 with hn | ⟨hfr, hg, hlt⟩
      · exact ⟨f, by rw [direct, if_pos hn], hc, le_rfl⟩
      · rw [direct, if_neg (by rw [Value.isNil_of_hasTag hfr (by decide)]; decide)]
        obtain ⟨g, hlink, hcode, hle⟩ := ih _ hlt hg
        exact ⟨g, hlink, hcode, hle.trans hlt.le⟩
  refine ⟨hw, fun f hc => ⟨fun hn => ?_, fun hn => ?_⟩, fun f g hc _ hr => ?_⟩
  · rw [hd f hc.1 hc.2, if_pos hn]
  · have direct := hd f hc.1 hc.2
    rw [Direct, if_neg (by rw [hn]; decide)] at direct
    refine ⟨.inl (link f hc), ?_⟩
    rcases (hu.fresh hc).2.2.1 with hn' | ⟨hfr, ho, -⟩
    · rw [hn] at hn'
      cases hn'
    · rw [hu.envOf hfr ho, direct]
      rfl
  · rw [(hu.fresh hc).2.1] at hr
    cases hr

end Machine

end RubyMachine
