import RubyMachine.Proofs.Machine.Soundness
import RubyMachine.Proofs.Threads.Order

/-! What a host does with a machine, and the machines that come of it. -/

namespace RubyMachine

/-- How a host calls into a machine. -/
inductive Entry where
  | send (name : Ident) (receiver : Value) (args : List Value) (kw : Value) (blk : Option Block)
  | method (fn : FnId) (receiver : Value) (args : List Value)
  | block (blk : Option Block) (args : List Value)
  /-- Calls the block of the method that runs. -/
  | yield (args : List Value)
  /-- Runs code as a top level. -/
  | top (fn : FnId)

namespace Entry

open Exec Machine

def start : Entry → Exec Control
  | send name receiver args kw blk => Exec.send name receiver args kw blk
  | method fn receiver args => callDirect fn receiver args
  | block blk args => callBlock blk args
  | yield args => do callBlock (← currentBlock?) args
  | top fn => do
    pushKont .boundary
    callDirect fn (← get).mainObject []

variable {m : Machine}

theorem start_calls (e : Entry) : Calls true e.start m.context.exactMark m := by
  cases e with
  | send name receiver args kw blk => exact send_calls _ _ _ _ _ (.refl _)
  | method fn receiver args => exact callDirect_calls _ _ _ (.refl _)
  | block blk args => exact callBlock_calls _ _ (.refl _)
  | yield args =>
    refine .still (stays_of_keeping 0 fun m => (Steady.logic m).currentBlock?) Keeping.kept_currentBlock? fun blk m' h => ?_
    exact callBlock_calls _ _ (h ▸ .refl _)
  | top fn =>
    refine .pushKont (q := m.context.exactMark) trivial (.refl _) (fun _ h => nomatch h) (.look ?_)
    exact callDirect_calls _ _ _ (.refl _)

/-- Every logic of calls has a rule for each entry. -/
theorem start_known {Φ : ∀ {α : Type}, Known → Exec α → (Known → α → Prop) → Prop} (L : CallLogic Φ) (e : Entry) :
    Φ (.anything 0) e.start (Same (.anything 0) (Known.anything 0).control) := by
  have hv (v : Value) : (Known.anything 0).value v := trivial
  have hvs (vs : List Value) : (Known.anything 0).values vs := fun v _ => hv v
  have hb (blk : Option Block) : (Known.anything 0).blockArg blk := maybe_all (Known.all_anything _).block blk
  cases e with
  | send name receiver args kw blk => exact L.send name (hv _) (hvs _) (hv _) (hb _)
  | method fn receiver args => exact L.callDirect fn (hv _) (hvs _)
  | block blk args => exact L.callBlock (hb _) (hvs _)
  | yield args => exact L.seq L.currentBlock? fun _ h => L.callBlock h (hvs _)
  | top fn => exact L.seq (L.pushKont trivial rfl) fun _ _ => L.look (fun _ _ => rfl) fun _ _ => L.callDirect fn (hv _) (hvs _)

theorem start_sound (e : Entry) (hm : m.Sound) : (after e.start m).Sound := hm.run (e.start_known Sound.logic)

end Entry

/-! ## What comes next -/

/-- What a host does with a machine besides calling into it. -/
structure Machine.Tended (m m' : Machine) : Prop where
  steady : m.Steady m'
  context : m'.context = m.context
  sound : m.Sound → m'.Sound

/-- What comes next: a step of the machine, or what the host does that has it in hand. -/
inductive Next : Control → Machine → Control → Machine → Prop where
  | step {c c' : Control} {m m' : Machine} : Exec.step c m = .ok (.inl c') m' → Next c m c' m'
  | tend {h : HostCall} {m m' : Machine} : m.Tended m' → Next (.host h) m (.host h) m'
  | enter {h : HostCall} {c : Control} {m m' : Machine} (e : Entry) : e.start m = .ok c m' → Next (.host h) m c m'
  /-- The host has the outcome of a call that it made. -/
  | back {r : Except Failure Value} {m : Machine} (h : HostCall) : Next (.deliver r) m (.host h) m
  | answer {h : HostCall} {m : Machine} (r : Except Failure Value) : Next (.host h) m (.deliver r) m

/-- What a machine is at, from the start on. Between runs it is in the hands of the host. -/
inductive Underway : Control → Machine → Prop where
  | blank (options : Options) (h : HostCall) : Underway (.host h) (.blank options)
  | boot (options : Options) (h : HostCall) : Underway (.host h) (after Exec.boot (.blank options))
  | next {c c' : Control} {m m' : Machine} : Underway c m → Next c m c' m' → Underway c' m'
  /-- A run that was cut off is forgotten. -/
  | restart {c : Control} {m : Machine} (h : HostCall) : Underway c m → Underway (.host h) (after Exec.restart m)

open Machine

variable {m m' : Machine} {c c' : Control}

theorem Machine.Tended.defers (h : m.Tended m') : m.Defers m.context.exactMark m' m'.context.exactMark :=
  h.context ▸ .of_steady h.steady

theorem Machine.Ready.of_idle {h : HostCall} (hk : m.context.konts = []) : m.Ready (.host h) :=
  ⟨trivial, m.context.exactMark, hk.symm ▸ Mark.leads_refl _⟩

/-- What comes next is the outcome of what is being done, or of what is left to be done with an outcome. -/
theorem Next.goes (hn : m.Numbered) (hf : c.Fits m.context) (h : Next c m c' m') :
    m.Goes (c.mark m.context) true c' m' ∨
    ∃ r k rest, c = .deliver r ∧ m.context.konts = k :: rest ∧ (k.Accepts m.context.exactMark →
      { m with context.konts := rest }.Goes (k.after m.context.exactMark) true c' m') := by
  cases h with
  | step h =>
    by_cases hd : ∀ r, c ≠ .deliver r
    · exact .inl (Exec.step_calls hn hf hd _ _ h)
    · obtain ⟨r, hr⟩ := not_forall_not.mp hd
      subst hr
      cases hk : m.context.konts with
      | nil =>
        obtain ⟨_, _, hg, h₁⟩ := exists_of_bind h
        cases hg
        rw [hk] at h₁
        cases h₁
      | cons k rest => exact .inr ⟨r, k, rest, rfl, rfl, fun ha => Exec.step_deliver hn hk ha _ _ h⟩
  | tend h => exact .inl (.on h.defers trivial)
  | enter e h => exact .inl (e.start_calls hn _ _ h)
  | back => exact .inl (.on (.refl _ _) trivial)
  | answer => exact .inl (.on (.refl _ _) trivial)

/-- Whatever comes next keeps a machine in order. -/
theorem Machine.Ordered.next (hm : m.Ordered) (hc : m.Ready c) (h : Next c m c' m') : m'.Ordered ∧ m'.Ready c' := by
  rcases h.goes hm.numbered hc.fits with hg | ⟨r, k, rest, rfl, hk, hg⟩
  · exact hm.goes hc.owes hg
  · obtain ⟨q, ho⟩ := hc.owes
    rw [hk] at ho
    exact (hm.popKont hk).goes ⟨q, ho.2⟩ (hg ho.1)

theorem Next.sound (hm : m.Sound) (h : Next c m c' m') : m'.Sound := by
  cases h with
  | step h => exact after_of_ok h ▸ hm.step c
  | tend h => exact h.sound hm
  | enter e h => exact after_of_ok h ▸ e.start_sound hm
  | back => exact hm
  | answer => exact hm

namespace Underway

theorem ordered (h : Underway c m) : m.Ordered ∧ m.Ready c := by
  induction h with
  | blank options h => exact ⟨.blank options, .of_idle rfl⟩
  | boot options h =>
    obtain ⟨hb, hk⟩ := (Ordered.blank options).boot
    exact ⟨hb, .of_idle hk⟩
  | next _ hn ih => exact ih.1.next ih.2 hn
  | restart h _ ih => exact ⟨ih.1.restart, .of_idle rfl⟩

theorem sound (h : Underway c m) : m.Sound := by
  induction h with
  | blank options h => exact sound_blank options
  | boot options h => exact (sound_blank options).boot
  | next _ hn ih => exact hn.sound ih
  | restart h _ ih => exact { ih with }

end Underway

end RubyMachine
