import RubyMachine.Proofs.Scope.Escape
import RubyMachine.Proofs.Scope.Homes

/-! How the homes of frames are kept up: by all that leaves control words alone, and by moves to the heap. -/

namespace RubyMachine

open Exec

namespace Machine

variable {m m' m'' : Machine} {fs gs : List Nat} {f g k : Nat} {v w top outer : Value}

/-! ## What frames are not concerned with -/

/-- The control words of frames are as before, but for saved positions, and the scopes that they name are as complete.
Locals and all else may have changed. -/
structure Untouched (m m' : Machine) (gs : List Nat) : Prop where
  inv : m'.heap.Inv
  capacity : m'.context.stack.capacity = m.context.stack.capacity
  word : ∀ f ∈ gs, ∀ k, k ≠ 5 → f + k < m.frameEnd f → m'.slot (f + k) = m.slot (f + k)
  position : ∀ f, m.CodeFrame gs f → (m'.slot (f + 5)).isFixnum = true
  scope : ∀ f, m.CodeFrame gs f → ∀ k < 8, ∀ top, m.Enclosed (m.slot (f + k)) top → m'.Enclosed (m.slot (f + k)) top

namespace Untouched

variable (hq : m.Untouched m' gs)

include hq

theorem flags (hf : f ∈ gs) : m'.slot (f + 2) = m.slot (f + 2) := hq.word f hf 2 (by decide) (add_two_lt_frameEnd m f)

theorem slotsAt (hf : f ∈ gs) : m'.slotsAt f = m.slotsAt f := by
  rw [Machine.slotsAt, hq.flags hf, Machine.slotsAt]

theorem isCode (hf : f ∈ gs) : m'.isCode f = m.isCode f := by
  rw [Machine.isCode, hq.flags hf, Machine.isCode]

theorem frameEnd (hf : f ∈ gs) : m'.frameEnd f = m.frameEnd f := by
  rw [Machine.frameEnd, hq.isCode hf, Machine.frameEnd]

theorem callerAt (hf : f ∈ gs) : m'.callerAt f = m.callerAt f := by
  have := hq.word f hf 0 (by decide) (by have := add_two_lt_frameEnd m f; omega)
  rw [Nat.add_zero] at this
  rw [Machine.callerAt, this, Machine.callerAt]

theorem codeFrame : m'.CodeFrame gs f ↔ m.CodeFrame gs f :=
  and_congr_right fun hf => by rw [hq.isCode hf]

theorem control (hf : m.CodeFrame gs f) (hk : k < 8 ∧ k ≠ 5) : m'.slot (f + k) = m.slot (f + k) :=
  hq.word f hf.1 k hk.2 (by rw [frameEnd_code hf.2]; omega)

theorem frames {o : Option Nat} (h : m.Frames o fs) (hsub : fs ⊆ gs) : m'.Frames o fs := by
  induction h with
  | nil => exact .nil
  | @cons f fs hp hc ht ih =>
    have hf := hsub List.mem_cons_self
    have hcaller := hq.callerAt hf
    refine .cons ⟨?_, ?_, ?_⟩ (fun g hg => ?_) ?_
    · rw [hq.flags hf]
      exact hp.flags
    · rw [hq.slotsAt hf]
      exact hp.low
    · rw [hq.frameEnd hf, hq.capacity]
      exact hp.high
    · rw [hcaller] at hg
      rw [hq.frameEnd (hsub (List.mem_cons_of_mem f (ht.caller_mem hg))), hq.slotsAt hf]
      exact hc g hg
    · rw [hcaller]
      exact ih fun g hg => hsub (List.mem_cons_of_mem f hg)

/-- Words that lead to the same frames and scopes go on to do so. -/
theorem envOf (hv : v.isFrame = true → m.CodeFrame gs v.toFrame) : m'.envOf v = m.envOf v := by
  rw [Machine.envOf, Machine.envOf]
  cases hf : v.isFrame with
  | true => rw [hq.control (hv hf) (k := 1) (by decide)]
  | false => rfl

end Untouched

/-- The frames `gs` are among `fs`, with all those that lie below them. -/
structure Lower (gs fs : List Nat) : Prop where
  sub : gs ⊆ fs
  down : ∀ f ∈ gs, ∀ g ∈ fs, g ≤ f → g ∈ gs

theorem Lower.refl (fs : List Nat) : Lower fs fs := ⟨List.Subset.refl fs, fun _ _ _ hg _ => hg⟩

theorem Lower.codeFrame (h : Lower gs fs) (hf : m.CodeFrame gs f) : m.CodeFrame fs f := ⟨h.sub hf.1, hf.2⟩

theorem Lower.below (h : Lower gs fs) (hf : m.CodeFrame gs f) (hg : m.CodeFrame fs g) (hle : g ≤ f) : m.CodeFrame gs g :=
  ⟨h.down f hf.1 g hg.1 hle, hg.2⟩

/-- The link of a frame leads to a frame that is not above it. -/
theorem Housed.names (hm : m.Housed fs) (hf : m.CodeFrame fs f) : m.Names fs f (m.slot (f + 3)) := by
  cases hn : (m.slot (f + 4)).isNil with
  | true => exact .inl ⟨f, (hm.homed f hf).alone hn, hf, le_rfl⟩
  | false => exact ((hm.homed f hf).nested hn).1

namespace Untouched

variable (hq : m.Untouched m' gs) (hl : Lower gs fs)

include hq hl

theorem wellFormed (hw : m.WellFormed fs) (hframes : m.Frames m'.context.frame gs) : m'.WellFormed gs := by
  refine ⟨hq.inv, hq.frames hframes (List.Subset.refl gs), fun f hf => ?_⟩
  replace hf := hq.codeFrame.1 hf
  have hlink := hw.linked f (hl.codeFrame hf)
  have below {g : Nat} (hg : m.CodeFrame fs g) (hlt : g < f) : m'.CodeFrame gs g := hq.codeFrame.2 (hl.below hf hg hlt.le)
  refine ⟨hlink.named, ?_, ?_, ?_, ?_, ?_⟩
  · rw [hq.control hf (by decide)]
    refine hlink.outer.imp_right (Or.imp (fun ⟨h, hg, hlt⟩ => ⟨h, below hg hlt, hlt⟩) fun ⟨top, ht⟩ => ⟨top, ?_⟩)
    exact hq.scope f hf 4 (by decide) top ht
  · rw [hq.control hf (by decide)]
    exact hlink.block.imp_right (Or.imp_right (Or.imp_right fun ⟨h, hg, hlt⟩ => ⟨h, below hg hlt, hlt⟩))
  · rw [hq.control hf (by decide)]
    intro hr
    obtain ⟨top, ht⟩ := hlink.copy hr
    exact ⟨top, hq.scope f hf 1 (by decide) top ht⟩
  · exact hq.position f hf
  · rw [hq.control hf (by decide)]
    exact hlink.code

/-- What a frame names is the same environment, and is named still if it is a frame. -/
theorem names (hw : m.WellFormed fs) (hf : m.CodeFrame gs f) (hv : m.Names fs f v) :
    m'.envOf v = m.envOf v ∧ (m'.Names gs f v ∨ ∃ top, m.Enclosed v top) := by
  rcases hv with ⟨g, rfl, hg, hle⟩ | ⟨top, ht⟩
  · have hg' := hl.below hf hg hle
    have hnamed := (hw.linked g hg).named
    exact ⟨hq.envOf fun _ => hnamed.symm ▸ hg', .inl (.inl ⟨g, rfl, hq.codeFrame.2 hg', hle⟩)⟩
  · exact ⟨(envOf_of_isRef ht.isRef).trans (envOf_of_isRef ht.isRef).symm, .inr ⟨top, ht⟩⟩

/-- The link of what is around a frame leads to where it led. What is around is another frame, its copy, or a scope. -/
theorem linkOf_outer (hm : m.Housed fs) (hf : m.CodeFrame gs f) (hn : (m.slot (f + 4)).isNil = false) :
    m'.envOf (m'.linkOf (m'.envOf (m.slot (f + 4)))) = m.envOf (m.linkOf (m.envOf (m.slot (f + 4)))) := by
  have hw := hm.toWellFormed
  rcases (hw.linked f (hl.codeFrame hf)).outer with hnil | ⟨hfr, hg, hlt⟩ | ⟨top, ht⟩
  · rw [hn] at hnil
    cases hnil
  · have hg' := hl.below hf hg hlt.le
    rw [hq.envOf fun _ => hg']
    cases hr : (m.slot ((m.slot (f + 4)).toFrame + 1)).isRef with
    | true =>
      obtain ⟨top, ht⟩ := (hw.linked _ hg).copy hr
      have same : m.envOf (m.slot (f + 4)) = .heap (m.slot ((m.slot (f + 4)).toFrame + 1)) := by
        rw [Machine.envOf, if_pos hfr, if_pos hr]
      have ht' := hq.scope _ hg' 1 (by decide) top ht
      rw [same, ht.linkOf, ht'.linkOf, envOf_of_isRef ht.outermost.isRef, envOf_of_isRef ht.outermost.isRef]
    | false =>
      have same : m.envOf (m.slot (f + 4)) = .stack (m.slot (f + 4)).toFrame := by
        rw [Machine.envOf, if_pos hfr, if_neg (by rw [hr]; decide)]
      rw [same, linkOf, linkOf, hq.control hg' (by decide)]
      exact (hq.names hl hw hg' (hm.names hg)).1
  · have ht' := hq.scope f hf 4 (by decide) top ht
    rw [envOf_of_isRef ht.isRef, envOf_of_isRef ht.isRef, ht.linkOf, ht'.linkOf, envOf_of_isRef ht.outermost.isRef,
      envOf_of_isRef ht.outermost.isRef]

end Untouched

/-- Frames stay housed when nothing happens that concerns them, and when those above them are gone. -/
theorem Housed.untouched (hm : m.Housed fs) (hq : m.Untouched m' gs) (hl : Lower gs fs) (hframes : m.Frames m'.context.frame gs) :
    m'.Housed gs := by
  have hw := hm.toWellFormed
  refine ⟨hq.wellFormed hl hw hframes, fun f hf => ?_, fun f g hf hg hr he => ?_⟩
  · have hf := hq.codeFrame.1 hf
    have hh := hm.homed f (hl.codeFrame hf)
    constructor
    · rw [hq.control hf (by decide), hq.control hf (by decide)]
      exact hh.alone
    · rw [hq.control hf (by decide), hq.control hf (by decide)]
      intro hn
      obtain ⟨hnames, hlink⟩ := hh.nested hn
      obtain ⟨henv, hnames'⟩ := hq.names hl hw hf hnames
      refine ⟨hnames'.elim id fun ⟨top, ht⟩ => .inr ⟨top, hq.scope f hf 3 (by decide) top ht⟩, ?_⟩
      rw [henv, hlink, hq.linkOf_outer hl hm hf hn]
  · have hf := hq.codeFrame.1 hf
    have hg := hq.codeFrame.1 hg
    rw [hq.control hf (by decide)] at hr he
    rw [hq.control hg (by decide)] at he
    exact hm.apart f g (hl.codeFrame hf) (hl.codeFrame hg) hr he

/-! ## Moves -/

/-- An environment when the frame at `f` has the copy `v`. -/
def redirected (f : Nat) (v : Value) : Env → Env
  | .stack g => if g = f then .heap v else .stack g
  | .heap w => .heap w

section Redirect

variable (hw : m.WellFormed fs) (hf : m.CodeFrame fs f)

theorem envOf_poke (hr : (m.slot (f + 1)).isRef = false) (hv : v.isRef = true) (u : Value) :
    (m.poke (f + 1) v).envOf u = redirected f v (m.envOf u) := by
  rw [envOf, envOf]
  cases u.isFrame with
  | false => rfl
  | true =>
    rw [if_pos rfl, if_pos rfl]
    by_cases hu : u.toFrame = f
    · rw [hu, slot_poke, if_pos rfl, if_pos hv, hr, if_neg (by decide), redirected, if_pos rfl]
    · have hslot : (m.poke (f + 1) v).slot (u.toFrame + 1) = m.slot (u.toFrame + 1) := by rw [slot_poke, if_neg (by omega)]
      rw [hslot]
      split_ifs
      · rfl
      · rw [redirected, if_neg hu]

include hw hf

theorem WellFormed.control_poke (hg : m.CodeFrame fs g) (hk : k < 8) (h1 : k ≠ 1) :
    (m.poke (f + 1) v).slot (g + k) = m.slot (g + k) := by
  rw [slot_poke, if_neg (hw.ne_copy hf hg.1 (by omega) (by rw [frameEnd_code hg.2]; omega) (by omega))]

theorem WellFormed.codeFrame_poke : (m.poke (f + 1) v).CodeFrame fs g ↔ m.CodeFrame fs g := by
  refine and_congr_right fun hg => ?_
  have hend := add_two_lt_frameEnd m g
  rw [isCode, slot_poke, if_neg (hw.ne_copy hf hg (by omega) hend (by omega)), isCode]

theorem WellFormed.linkOf_poke {u : Value} (hu : m.Leads fs u) :
    (m.poke (f + 1) v).linkOf (m.envOf u) = m.linkOf (m.envOf u) := by
  rw [envOf]
  split_ifs with hfr hr
  · rfl
  · have notScope : ¬∃ top, m.Enclosed u top := by
      rintro ⟨top, ht⟩
      rw [Value.isFrame_of_isRef ht.isRef] at hfr
      cases hfr
    have hg := hu.resolve_right notScope
    exact hw.control_poke hf hg.2 (by decide) (by decide)
  · rfl

theorem WellFormed.poke_copy (hv : m.Enclosed v top) : (m.poke (f + 1) v).WellFormed fs := by
  have keeps : m.KeepsScopes (m.poke (f + 1) v) := fun _ _ hs _ => hs
  have keepsFrame (g : Nat) (hg : g ∈ fs) : m.KeepsFrame (m.poke (f + 1) v) g := fun i hlo hhi hne => by
    rw [slot_poke, if_neg (hw.ne_copy hf hg hlo hhi hne)]
  refine ⟨hw.heap, Frames.mono (m := m) rfl keepsFrame hw.frames, fun g hg => ?_⟩
  · have hg := (hw.codeFrame_poke hf).1 hg
    have hl := hw.linked g hg
    have hc (k : Nat) (hk : k < 8) (h1 : k ≠ 1) := hw.control_poke hf (v := v) hg hk h1
    refine ⟨hl.named, ?_, ?_, ?_, ?_, ?_⟩
    · rw [hc 4 (by decide) (by decide), hw.codeFrame_poke hf]
      exact hl.outer.imp_right (Or.imp_right fun ⟨top, ht⟩ => ⟨top, ht.mono keeps⟩)
    · rw [hc 7 (by decide) (by decide), hw.codeFrame_poke hf]
      exact hl.block
    · rw [slot_poke]
      split_ifs with he
      · exact fun _ => ⟨top, hv.mono keeps⟩
      · exact fun hr => (hl.copy hr).imp fun _ ht => ht.mono keeps
    · rw [hc 5 (by decide) (by decide)]
      exact hl.position
    · rw [hc 6 (by decide) (by decide)]
      exact hl.code

end Redirect

/-- The link of a frame leads to where that of its copy leads, once the frame names the copy. -/
theorem Housed.envOf_link (hm : m.Housed fs) (hf : m.CodeFrame fs f) (hr : (m.slot (f + 1)).isRef = false)
    (hv : v.isRef = true) (ha : m.Around f v top) : (m.poke (f + 1) v).envOf (m.slot (f + 3)) = .heap top := by
  rw [envOf_poke hr hv]
  rcases ha with ⟨hn, rfl⟩ | ⟨outer, ho, ha⟩
  · have hnamed := (hm.toWellFormed.linked f hf).named
    rw [(hm.homed f hf).alone hn, envOf_frameAt hnamed, if_neg (by rw [hr]; decide), redirected, if_pos rfl]
  · have hout : m.envOf (m.slot (f + 4)) = .heap outer := by
      rcases ha with he | ⟨hfr, he⟩
      · rw [he, envOf_of_isRef ho.isRef]
      · rw [envOf, if_pos hfr, he, if_pos ho.isRef]
    have hn : (m.slot (f + 4)).isNil = false := by
      rcases ha with he | ⟨hfr, -⟩
      · rw [he, Value.isNil_of_isRef ho.isRef]
      · exact Value.isNil_of_hasTag hfr (by decide)
    rw [((hm.homed f hf).nested hn).2, hout, ho.linkOf, envOf_of_isRef ho.outermost.isRef, redirected]

/-- Frames go on to be homed: what was nested in the frame is nested in its copy. -/
theorem Housed.homed_poke (hm : m.Housed fs) (hf : m.CodeFrame fs f) (hr : (m.slot (f + 1)).isRef = false)
    (hv : m.Enclosed v top) (ha : m.Around f v top) (hg : m.CodeFrame fs g) : (m.poke (f + 1) v).Homed fs g := by
  have hw := hm.toWellFormed
  have hh := hm.homed g hg
  have keeps : m.KeepsScopes (m.poke (f + 1) v) := fun _ _ hs _ => hs
  have henv := envOf_poke hr hv.isRef
  have h3 := hw.control_poke hf (v := v) hg (k := 3) (by decide) (by decide)
  have h4 := hw.control_poke hf (v := v) hg (k := 4) (by decide) (by decide)
  refine ⟨fun hn => ?_, fun hn => ?_⟩
  · rw [h4] at hn
    rw [h3, hh.alone hn]
  · rw [h4] at hn
    obtain ⟨hnames, hsame⟩ := hh.nested hn
    rw [h3, h4]
    constructor
    · rcases hnames with ⟨k, hk, hc, hle⟩ | ⟨top, ht⟩
      · exact .inl ⟨k, hk, (hw.codeFrame_poke hf).2 hc, hle⟩
      · exact .inr ⟨top, ht.mono keeps⟩
    by_cases ho : m.envOf (m.slot (g + 4)) = .stack f
    · rw [henv (m.slot (g + 3)), hsame, henv (m.slot (g + 4)), ho, redirected, if_pos rfl, (hv.mono keeps).linkOf,
        envOf_of_isRef hv.outermost.isRef, ← hm.envOf_link hf hr hv.isRef ha, henv]
      rfl
    · have hleads := (hw.leads_outer hg).resolve_left (by rw [hn]; decide)
      have hstays : redirected f v (m.envOf (m.slot (g + 4))) = m.envOf (m.slot (g + 4)) := by
        cases he : m.envOf (m.slot (g + 4)) with
        | heap => rfl
        | stack k => exact if_neg fun hk => ho (he.trans (congrArg _ hk))
      rw [henv (m.slot (g + 3)), hsame, henv (m.slot (g + 4)), hstays, hw.linkOf_poke hf hleads, henv]

/-- Frames stay housed when one of them gets a copy that is linked as the frame is. -/
theorem Housed.redirect (hm : m.Housed fs) (hf : m.CodeFrame fs f) (hr : (m.slot (f + 1)).isRef = false)
    (hv : m.Enclosed v top) (hunused : ∀ g, m.CodeFrame fs g → m.slot (g + 1) ≠ v) (ha : m.Around f v top) :
    (m.poke (f + 1) v).Housed fs := by
  have hw := hm.toWellFormed
  refine ⟨hw.poke_copy hf hv, fun g hg => hm.homed_poke hf hr hv ha ((hw.codeFrame_poke hf).1 hg),
    fun g g' hg hg' hgr he => ?_⟩
  have hg := (hw.codeFrame_poke hf).1 hg
  have hg' := (hw.codeFrame_poke hf).1 hg'
  rw [slot_poke] at hgr
  rw [slot_poke, slot_poke] at he
  split_ifs at he hgr with h h'
  · omega
  · exact absurd he.symm (hunused g' hg')
  · exact absurd he (hunused g hg)
  · exact hm.apart g g' hg hg' hgr he

/-- Frames are housed before a move and after it. -/
theorem Housed.upheld (fs : List Nat) : Upheld (fun m => m.Housed fs) fs where
  quiet hw hm hc hk _ hi := by
    refine hm.untouched ⟨hi, by rw [hc], fun f _ k _ _ => ?_, fun f hf => ?_, fun _ _ _ _ _ ht => ht.mono hk⟩ (.refl fs)
      (by rw [hc]; exact hw.frames)
    · rw [slot, hc, slot]
    · rw [slot, hc]
      exact (hw.linked f hf).position
  redirect _ hm hf hr hv hunused ha _ := hm.redirect hf hr hv hunused ha

theorem Housed.moveToHeap (hm : m.Housed fs) (hf : m.CodeFrame fs f) :
    Ends (Exec.moveToHeap (.frameAt f)) m (m.heap.pages.size + 2 * fs.length) fun _ m' => m'.Housed fs := by
  have hw := hm.toWellFormed
  have hnamed := (hw.linked f hf).named
  have hhigh := (hw.frames.placed hf.1).high
  rw [frameEnd_code hf.2] at hhigh
  have hends := escape_keeps (Housed.upheld fs) (m.context.stack.capacity + 2) (f + 1) (by omega) hw hm
    (.inr (.inl ⟨Value.isFrame_frameAt f, hnamed.symm ▸ hf, by rw [hnamed]; omega⟩)) (m.demand_le_length fs _)
  exact Ends.step (show Exec.stack m = .ok m.context.stack m from rfl) (hends.imp fun _ _ h => h.2.1)

end Machine

end RubyMachine
