import RubyMachine.Proofs.Machine.Likewise
import RubyMachine.Proofs.Threads.Returns
import RubyMachine.Proofs.Threads.Unwinding

/-! Boundaries. A call that the host makes with no frame active is above a boundary, and what comes back to the host is a
value or a failure in the terms of the program, never the signal of a return or a break. A fiber ends in the same way for
the one that resumed it. A function that is called without being looked up has no boundary below it. -/

namespace RubyMachine

open Exec Machine

variable {m m' m₁ : Machine} {c c' : Control} {k : Kont} {r : Except Failure Value} {e : Entry} {v : Visit}
  {W W' : List Context}

/-! ## Ends -/

theorem Failure.escape_isControl (f : Failure) : f.escape.kind.isControl = false := by
  unfold escape
  cases hk : f.kind <;> first | rfl | exact congrArg ErrorKind.isControl hk

theorem ordinary_escape (r : Except Failure Value) : Ordinary (r.mapError Failure.escape) := by
  cases r with
  | ok v => exact fun f h => nomatch h
  | error f =>
    intro f' h
    cases h
    exact f.escape_isControl

theorem Exec.finishFiber_ok (h : finishFiber r m = .ok c m') : c = .deliver (r.mapError Failure.escape) := by
  cases hf : m.context.fiber with
  | none => cases (finishFiber_root hf).symm.trans h
  | some id =>
    cases hw : m.waiting with
    | nil => cases (finishFiber_alone hf hw).symm.trans h
    | cons x rest =>
      cases (finishFiber_apply hf hw).symm.trans h
      rfl

/-- What ends a fiber or a call by the host lets no signal past. -/
theorem Exec.resumeKont_isEnd (hk : k.isEnd = true) (h : resumeKont k r m = .ok c m') :
    ∃ r', c = .deliver r' ∧ Ordinary r' := by
  cases k with
  | boundary =>
    cases h
    exact ⟨_, rfl, ordinary_escape r⟩
  | fiberBody => exact ⟨_, finishFiber_ok h, ordinary_escape r⟩
  | fiberIteration =>
    cases r with
    | ok v => exact ⟨_, finishFiber_ok (r := .error { cause := .exhausted, value := v }) h, ordinary_escape _⟩
    | error f => exact ⟨_, finishFiber_ok (r := .error f) h, ordinary_escape _⟩
  | _ => cases hk

/-! ## Calls by the host -/

/-- The call is made with no frame active, and looks up what it calls, or it runs a top level. -/
def Entry.Guarded (m : Machine) : Entry → Prop
  | .top _ => True
  | .method .. => False
  | .send .. | .block .. | .yield _ => m.context.frame = none

/-- A call is refused with a failure in the terms of the program, or it is above a boundary. -/
structure Machine.Encloses (m : Machine) (c : Control) (m₁ : Machine) : Prop where
  fiber : m₁.context.fiber = m.context.fiber
  konts : (m₁.context.konts = m.context.konts ∧ ∃ r, c = .deliver r ∧ Ordinary r) ∨
    m₁.context.konts = .boundary :: m.context.konts

namespace Machine.Encloses

theorem of_steady (h : m.Steady m') (hg : m'.Encloses c m₁) : m.Encloses c m₁ where
  fiber := hg.fiber.trans h.fiber
  konts := h.konts ▸ hg.konts

theorem refused {f : Failure} (h : m.Steady m₁) (hf : f.kind.isControl = false) : m.Encloses (.failure f) m₁ where
  fiber := h.fiber
  konts := .inl ⟨h.konts, _, rfl, fun f' he => by cases he; exact hf⟩

theorem above (h : { m with context.konts := .boundary :: m.context.konts }.Steady m₁) : m.Encloses c m₁ :=
  ⟨h.fiber, .inr h.konts⟩

end Machine.Encloses

namespace Exec

/-- What goes on after a boundary was put below it. -/
theorem markBoundary_encloses {next : Int → Control} {receiver : Value} {args : List Value} (hf : m.context.frame = none)
    (h : (do
      markBoundary
      let base ← pushCall receiver args
      return next base : Exec Control) m = .ok c m') : m.Encloses c m' := by
  have marked : markBoundary m = .ok () { m with context.konts := .boundary :: m.context.konts } := by
    have none : frame? m = .ok none m := congrArg (EStateM.Result.ok · m) hf
    exact bind_of_ok none
  rw [bind_of_ok marked] at h
  obtain ⟨base, m₁, hp, h⟩ := exists_of_bind h
  cases h
  exact .above (pushCall_ok hp).1

theorem callBlock_encloses {blk : Option Block} {args : List Value} (hf : m.context.frame = none)
    (h : callBlock blk args m = .ok c m') : m.Encloses c m' := by
  cases blk with
  | none =>
    cases h
    exact .refused (.refl m) rfl
  | some b => exact markBoundary_encloses hf h

theorem send_encloses {name : Ident} {receiver kw : Value} {args : List Value} {blk : Option Block}
    (hf : m.context.frame = none) (h : send name receiver args kw blk m = .ok c m') : m.Encloses c m' := by
  obtain ⟨cls, m₁, hc, h⟩ := exists_of_bind h
  have found := classOf_stays receiver _ _ _ hc
  obtain ⟨fn, m₂, hm, h⟩ := exists_of_bind h
  have found := found.trans (findMethod_stays cls name _ _ _ hm)
  cases fn with
  | none =>
    obtain ⟨f, m₃, hn, h⟩ := exists_of_bind h
    cases h
    refine .refused (found.trans (noMethod_stays name receiver _ _ _ hn)) ?_
    obtain ⟨_, _, -, hn⟩ := exists_of_bind hn
    obtain ⟨_, _, -, hn⟩ := exists_of_bind hn
    cases hn
    rfl
  | some fn => exact .of_steady found (markBoundary_encloses (found.frame.trans hf) h)

end Exec

theorem Entry.Guarded.start (hg : e.Guarded m) (h : e.start m = .ok c m₁) : m.Encloses c m₁ := by
  cases e with
  | send name receiver args kw blk => exact send_encloses hg h
  | method fn receiver args => exact hg.elim
  | block blk args => exact callBlock_encloses hg h
  | yield args =>
    obtain ⟨blk, m₂, hb, h⟩ := exists_of_bind h
    have same := stays_of_keeping 0 (fun m => (Steady.logic m).currentBlock?) _ _ _ hb
    exact .of_steady same (callBlock_encloses (same.frame.trans hg) h)
  | top fn =>
    have h : callDirect fn m.mainObject [] { m with context.konts := .boundary :: m.context.konts } = .ok c m₁ := h
    obtain ⟨base, m₂, hp, h⟩ := exists_of_bind h
    cases h
    exact .above (pushCall_ok hp).1

namespace Visit

/-- The call that is made above a boundary. -/
def inner (v : Visit) (p : Mark) : Visit := ⟨v.fiber, .boundary :: v.konts, p⟩

/-- What is made above a boundary goes on there, or it has come back with no signal. -/
def Held (v : Visit) (p : Mark) (W : List Context) (c : Control) (m : Machine) : Prop :=
  (v.inner p).During W (c.mark m.context) m ∨ v.Returned c m ∧ ∀ r, c = .deliver r → Ordinary r

variable {p : Mark}

theorem Held.next (hm : m.Ordered) (hc : m.Ready c) (h : v.Held p W c m) (hn : ¬v.Returned c m) (hx : Next c m c' m') :
    v.Held p (v.waiters W m m') c' m' := by
  have h := h.resolve_right fun h => hn h.1
  by_cases hr : (v.inner p).Returned c m
  · obtain ⟨⟨r, rfl⟩, hfiber, hkonts⟩ := hr
    cases hx with
    | step hx =>
      obtain ⟨c₁, hk, he⟩ := exists_of_deliver hkonts hx
      cases he
      cases hk
      refine .inr ⟨⟨⟨_, rfl⟩, hfiber, rfl⟩, fun r' h => ?_⟩
      cases h
      exact ordinary_escape r
    | back => exact .inl (h.goes (b := true) hm (.on (.refl _ _) trivial))
  · exact .inl (h.next hm hc hr hx)

theorem Held.ordinary (hm : m.Ordered) (h : v.Held p W c m) (hr : v.Returned c m) : ∃ r, c = .deliver r ∧ Ordinary r := by
  obtain ⟨r, rfl⟩ := hr.outcome
  rcases h with h | ⟨-, ho⟩
  · obtain ⟨⟨-, ks, hk, -⟩, -⟩ := h.on_running hm hr.fiber
    have len := congrArg List.length (hr.konts.symm.trans hk)
    simp only [inner, List.length_append, List.length_cons] at len
    omega
  · exact ⟨r, rfl, ho r rfl⟩

theorem Run.held (hr : v.Run W c m W' c' m') (hm : m.Ordered) (hc : m.Ready c) (h : v.Held p W c m) :
    m'.Ordered ∧ v.Held p W' c' m' := by
  suffices m'.Ordered ∧ m'.Ready c' ∧ v.Held p W' c' m' from ⟨this.1, this.2.2⟩
  induction hr with
  | refl => exact ⟨hm, hc, h⟩
  | next _ hn hx ih =>
    obtain ⟨hm₁, hc₁, h₁⟩ := ih hm hc h
    obtain ⟨hm₂, hc₂⟩ := hm₁.next hc₁ hx
    exact ⟨hm₂, hc₂, h₁.next hm₁ hc₁ hn hx⟩

end Visit

/-- What comes back to the host from a call that it makes with no frame active, however the program runs until then,
is a value or a failure in the terms of the program. -/
theorem Underway.guarded_ordinary {x : HostCall} (h : Underway (.host x) m) (hg : e.Guarded m) (he : e.start m = .ok c m₁)
    (hrun : ((Control.host x).visit m).Run m₁.waiting c m₁ W' c' m')
    (hret : ((Control.host x).visit m).Returned c' m') : ∃ r, c' = .deliver r ∧ Ordinary r := by
  obtain ⟨hm, hc⟩ := (h.next (.enter e he)).ordered
  have encloses := hg.start he
  have held : ((Control.host x).visit m).Held (c.mark m₁.context) m₁.waiting c m₁ := by
    rcases encloses.konts with ⟨hk, r, rfl, ho⟩ | hk
    · refine .inr ⟨⟨⟨r, rfl⟩, encloses.fiber, hk⟩, fun r' h => ?_⟩
      cases h
      exact ho
    · exact .inl (.running ⟨encloses.fiber, [], hk, Mark.leads_refl _⟩ rfl)
  obtain ⟨hm', held'⟩ := hrun.held hm hc held
  exact held'.ordinary hm' hret

end RubyMachine
