import RubyMachine.Proofs.Machine.Operators
import RubyMachine.Proofs.Threads.MethodReturns

/-! Breaks. A break that a block makes ends the send which the frame around the block waits for, with everything that was
called since, if that send was given a block. Whose block it was given does not matter: the signal names the frame, not the
send. Where the frame waits for something else, or does not wait at all, the break passes by. -/

namespace RubyMachine

open Exec

variable {m m' m₁ : Machine} {fs : List Nat} {a b : Activation} {k : Kont} {ks rest : List Kont} {v w : Value} {h : Env}
  {f : Nat} {pc : Int}

def Kont.IsSending (m : Machine) (h : Env) : Kont → Prop
  | .activation b _ _ p => p.hasBlock = true ∧ frameEnv b.frame m = .ok h m
  | _ => False

namespace Machine

/-- The word for the environment that the one of a frame is nested in. -/
def outerOf (m : Machine) (f : Nat) : Value := m.wordOf (m.envOf (.frameAt f)) 4

def NestedIn (m : Machine) (f : Nat) (h : Env) : Prop :=
  ∃ e o, frameEnv f m = .ok e m ∧ e.outer m = .ok o m ∧ envAt o m = .ok h m

/-- The next instruction is a break, with `v` on the stack of its frame, which is nested in another one. -/
structure Breaking (m : Machine) (fs : List Nat) (a : Activation) (pc : Int) (v : Value) : Prop where
  start : 0 ≤ pc
  stop : pc < a.seq.code.size
  op : Code.Opcode.ofByte? (a.seq.code.getD pc.toNat 0) = some .brk
  own : (a.frame : Int) + 8 < m.context.stack.len
  top : m.context.stack.top = .ok v
  nested : m.Names fs a.frame (m.outerOf a.frame)

/-- Where the signal `f` goes that was given in `m` for a send in the environment `h`, and left the activation that gave it
in `m₁`. -/
structure Ending (m m₁ : Machine) (f : Failure) (h : Env) : Prop where
  one : ∀ ks k rest ks' k' rest', m.context.konts = ks ++ k :: rest → m.context.konts = ks' ++ k' :: rest' →
    k.IsIn m h → k'.IsIn m h → ks = ks' ∧ k = k' ∧ rest = rest'
  /-- When it waits for a send with a block, the send ends with the value of the break, and all that it waited for. -/
  send : ∀ ks b pc next discard rest, m.context.konts = ks ++ .activation b pc next (.send true discard) :: rest →
    (∀ k ∈ ks, k.isEnd = false) → frameEnv b.frame m = .ok h m →
      ∃ m₂ n, Unwinds f m₁ m₂ ∧ m.Lowered m₂ n ∧ b.Lies n ∧ step (.deliver (.error f)) m₂ = .ok (.inl (.exec b next))
        { m₂ with context.konts := rest,
                  context.stack := if discard then m₂.context.stack else m₂.context.stack.append f.value }
  past : ∀ ks rest, m.context.konts = ks ++ rest → (∀ k ∈ ks, k.isEnd = false) → (∀ k ∈ ks, ¬k.IsSending m h) →
    ∃ m₂, Unwinds f m₁ m₂ ∧ m₂.context.konts = rest
  out : (∀ k ∈ m.context.konts, k.isEnd = false) → (∀ k ∈ m.context.konts, ¬k.IsSending m h) →
    ∃ m₂, Unwinds f m₁ m₂ ∧ step (.deliver (.error f)) m₂ = .ok (.inr (.done (.error f))) m₂

namespace Intact

/-- In the frame of a block, the instruction gives a signal for the environment that the frame is nested in. -/
theorem exit_break (ha : m.Intact fs a) (hr : m.Breaking fs a pc v) (hk : a.seq.kind = .block) :
    ∃ m₁, step (.exec a pc) m = .ok (.inl (.deliver (.error (.blockReturn v (m.outerOf a.frame))))) m₁ ∧
      m₁.context.konts = m.context.konts ∧ m.Lowered m₁ a.height := by
  have own := hr.own
  obtain ⟨m₀, hpop, hkonts, hlow, hlies, -⟩ := ha.popped own hr.top
  obtain ⟨henv, hword⟩ := ha.housed.toWellFormed.word_lowered ha.here hlow (by omega)
    (i := Frame.outerWord) (k := 4) rfl (by decide)
  have houter : (m.envOf (.frameAt a.frame)).outer m₀ = .ok (m.outerOf a.frame) m₀ := hword
  have hexit : (Site.exit ⟨a, pc.toNat, .brk⟩).run m =
      .ok (.ok (.leave (.error (.blockReturn v (m.outerOf a.frame))))) m₀ := by
    unfold Site.exit
    rw [run_liftM_bind, bind_of_ok hpop]
    dsimp only
    rw [hk, if_pos (by decide), run_liftM_bind, Site.env, bind_of_ok henv, run_liftM_bind, bind_of_ok houter]
    rfl
  have hkind : (Failure.blockReturn v (m.outerOf a.frame)).kind ≠ .methodReturn := by
    intro h
    cases h
  have hleave := leave_other hkind hlies
  exact ⟨_, step_exit hr.start hr.stop hr.op hexit hleave, hkonts, hlow.back hlies⟩

theorem stops_iff (ha : m.Intact fs a) (hw : m.Names fs f w) (hk : k ∈ m.context.konts) :
    k.stops m (.blockReturn v w) = true ↔ k.IsSending m (m.envOf w) := by
  cases k with
  | activation b pc next p =>
    show (_ && _) = true ↔ _ ∧ _
    have hb := ha.framed b pc next p hk
    rw [Bool.and_eq_true, ha.housed.toWellFormed.frameEnv_iff hb, ← ha.housed.isNamed_iff hw hb, and_comm]
    rfl
  | _ => exact iff_of_false Bool.false_ne_true id

theorem ending (ha : m.Intact fs a) (hw : m.Names fs f w) (hl : m.Lowered m₁ a.height)
    (hkonts : m₁.context.konts = m.context.konts) : m.Ending m₁ (.blockReturn v w) (m.envOf w) := by
  have past (ks rest : List Kont) (hks : m.context.konts = ks ++ rest) (hend : ∀ k ∈ ks, k.isEnd = false)
      (hn : ∀ k ∈ ks, ¬k.IsSending m (m.envOf w)) := ha.past (f := .blockReturn v w) rfl hl hkonts hks hend fun k hk =>
    Bool.eq_false_of_not_eq_true fun hs => hn k hk ((ha.stops_iff hw (hks ▸ List.mem_append_left _ hk)).1 hs)
  refine ⟨fun ks k rest ks' k' rest' => ha.one, fun ks b pc next discard rest hks hend hb => ?_,
    fun ks rest hks hend hn => ?_, fun hend hn => ?_⟩
  · -- nothing above waits in the same environment
    have hn (k : Kont) (hk : k ∈ ks) : ¬k.IsSending m (m.envOf w) := fun hsending => by
      obtain ⟨l, r, rfl⟩ := List.append_of_mem hk
      have hin : k.IsIn m (m.envOf w) := by
        cases k with
        | activation b' pc' next' p' => exact hsending.2
        | _ => exact hsending
      have hpre := (ha.one (k := .activation b pc next (.send true discard)) hks (by rw [hks, List.append_assoc]; rfl) hb hin).1
      simp at hpre
    obtain ⟨m₂, hun, hrest, hlow, hpost, hroom⟩ := past ks _ hks hend hn
    have hlies : b.Lies (floors a.height ks) := hpost.1
    have hnamed : m₂.isNamed w b.frame = true := by
      have hmem : .activation b pc next (.send true discard) ∈ m.context.konts := hks ▸ by simp
      rw [hlow.isNamed hlies.top, ha.housed.isNamed_iff hw (ha.framed b pc next _ hmem)]
      exact (ha.housed.toWellFormed.frameEnv_iff (ha.framed b pc next _ hmem)).1 hb
    refine ⟨m₂, _, hun, hlow, hlies, deliver_ok hrest ?_⟩
    have hbreak := resumeActivation_break (m := { m₂ with context.konts := rest }) (f := .blockReturn v w) pc next discard
      rfl (hlow.len ▸ hlies) hroom.le
    refine hbreak.trans ((if_pos hnamed).trans ?_)
    cases discard with
    | true => rfl
    | false => exact bind_of_ok (push_apply v hroom)
  · obtain ⟨m₂, hun, hrest, -⟩ := past ks rest hks hend hn
    exact ⟨m₂, hun, hrest⟩
  · obtain ⟨m₂, hun, hrest, -⟩ := past _ [] (List.append_nil _).symm hend hn
    exact ⟨m₂, hun, deliver_nil hrest⟩

end Intact

/-- A break that a block makes goes to the environment that its frame is nested in. It ends the send that is waited for
there, with all that was called since, if that has a block, and else gets past everything. No handler ever takes it: in any
state at all, only a send with a block in the frame that the signal names is ended by it. -/
theorem break_targets (ha : m.Intact fs a) (hr : m.Breaking fs a pc v) (hk : a.seq.kind = .block) :
    (∃ h w m₁, m.NestedIn a.frame h ∧ step (.exec a pc) m = .ok (.inl (.deliver (.error (.blockReturn v w)))) m₁ ∧
      m.Ending m₁ (.blockReturn v w) h) ∧
    ∀ m₀ m' : Machine, ∀ w k rest o, m₀.context.konts = k :: rest → k.isEnd = false →
      step (.deliver (.error (.blockReturn v w))) m₀ = .ok o m' → o = .inl (.deliver (.error (.blockReturn v w))) ∨
        ∃ b pc next discard, k = .activation b pc next (.send true discard) ∧ m₀.isNamed w b.frame = true ∧
          o = .inl (.exec b next) := by
  refine ⟨?_, fun m₀ m' w k rest o hkonts hend => step_break_passes rfl hkonts hend⟩
  have hw := ha.housed.toWellFormed
  obtain ⟨m₁, hstep, hkonts, hlow⟩ := ha.exit_break hr hk
  obtain ⟨henv, houter⟩ := hw.word_lowered ha.here (.refl m) ha.lies.top (i := Frame.outerWord) (k := 4) rfl (by decide)
  have hat := (hw.reads_env (hw.leads_of_names hr.nested)).1
  exact ⟨_, _, m₁, ⟨_, _, henv, houter, hat⟩, hstep, ha.ending hr.nested hlow hkonts⟩

end Machine

end RubyMachine
