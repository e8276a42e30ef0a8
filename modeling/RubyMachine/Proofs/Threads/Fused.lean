import RubyMachine.Proofs.Arguments.Pictures
import RubyMachine.Proofs.Code.Agreement
import RubyMachine.Proofs.Threads.Operating
import RubyMachine.Proofs.Threads.MethodReturns

/-! Instructions that do the work of several: operators whose right operand is part of the code, and comparisons that jump.
Each has the effect of the instructions that it stands for. -/

namespace RubyMachine

/-! ## Slots that are used in between -/

namespace Stack

variable {s s₁ : Stack} {len size : Nat} {f : Nat → Value} {v : Value} {l : List Value}

theorem Holds.append (h : s.Holds s₁ len size f) (v : Value) :
    s.Holds (s₁.append v) (len + 1) (max size (len + 1)) (Function.update f len v) where
  id := h.id
  capacity := h.capacity
  len := congrArg (· + 1) h.len
  size := by
    show (store _ _ _).size = _
    rw [size_store, h.size, h.len]
  slot i := by
    show (store _ _ _).getD i .zero = _
    rw [getD_store, h.len, h.slot, Function.update_apply]

theorem Holds.popped (h : s.Holds s₁ (len + 1) size f) : s.Holds s₁.popped len size (Function.update f len .nil) where
  id := h.id
  capacity := h.capacity
  len := by
    show min (s₁.len - 1) s₁.len = len
    rw [h.len]
    omega
  size := by
    show (wipe _ _ _ _).size = size
    rw [size_wipe, h.size]
  slot i := by
    have hlen := h.len
    have hsize := h.size
    have hle := s₁.len_le
    have hone : s₁.len - (s₁.len - 1) = 1 := by omega
    have hat : s₁.len - 1 = len := by omega
    show (wipe s₁.slots (s₁.len - 1) .nil (s₁.len - (s₁.len - 1))).getD i .zero = _
    rw [hone, hat, wipe, wipe, Function.update_apply, ← h.slot]
    simp only [Array.getD_eq_getD_getElem?, Array.getElem?_setIfInBounds]
    by_cases hi : len = i
    · rw [if_pos hi, if_pos hi.symm, if_pos (by omega)]
      rfl
    · rw [if_neg hi, if_neg (Ne.symm hi)]

/-- A slot that was used and given up in between does not matter once it is used again. -/
theorem append_popped (u : Value) (h : s.toList = l ++ [v]) (x y : Value) :
    ((s.append u).popped.popped.append x).append y = (s.popped.append x).append y := by
  obtain ⟨n, hlen⟩ : ∃ n, s.len = n + 1 := ⟨l.length, by rw [← length_toList, h, List.length_append, List.length_singleton]⟩
  have hs : s.Holds s (n + 1) s.slots.size fun i => s.slots.getD i .zero := hlen ▸ .refl s
  have used := ((hs.append u).popped.popped.append x).append y
  have fresh := (hs.popped.append x).append y
  have size : max (max (max s.slots.size (n + 1 + 1)) (n + 1)) (n + 1 + 1) = max (max s.slots.size (n + 1)) (n + 1 + 1) := by
    omega
  rw [size] at used
  refine used.unique (fresh.congr fun i => ?_)
  simp only [Function.update_apply]
  split_ifs <;> rfl

end Stack

/-! ## Running an instruction -/

namespace Exec

variable {a : Activation} {pc : Nat} {op : Code.Opcode} {m m' : Machine} {k : Kont} {o : Operator} {v w : Value}
  {l : List Value}

/-- What is done with the value of an operator is what waits for it. -/
theorem apply_eq {next : Int} {p : Pending} {done : Value → Exec Effect} (o : Operator) (v w : Value)
    (hd : ∀ v, (done v >>= conclude a pc next) = resumeActivation a pc next p (.ok v))
    (hp : ∀ f, resumeActivation a pc next p (.error f) = raise a pc f) :
    ((Site.apply o v w p done).run >>= fun r => match r with
      | .ok e => conclude a pc next e
      | .error f => raise a pc f) = operate (.activation a pc next p) o v w := by
  unfold Site.apply operate
  rw [run_liftM_bind, bind_assoc]
  refine congrArg (operation o v w >>= ·) (funext fun x => ?_)
  rcases x with ⟨f | v⟩ | ⟨name, negated⟩
  · exact (hp f).symm
  · refine Eq.trans ?_ (hd v)
    show (liftM (done v) : Attempt Effect).run >>= _ = _
    rw [ExceptT.run_liftM, bind_map_left]
  · rfl

theorem exec_of_run {x : Attempt Effect} (ho : Code.opcodeAt? a.seq.code pc = some op)
    (h : (Site.mk a pc op).perform.run m = x.run m') : exec a pc m =
      (x.run >>= fun r => match r with
        | .ok e => conclude a pc (pc + op.size) e
        | .error f => raise a pc f) m' := by
  calc exec a pc m = ((Site.mk a pc op).perform.run >>= fun r => match r with
        | .ok e => conclude a pc (pc + op.size) e
        | .error f => raise a pc f) m := exec_eq ho
    _ = _ := by rw [bind_apply, bind_apply, h]

theorem applyPush_eq (o : Operator) (v w : Value) (next : Int) :
    ((Site.applyPush o v w).run >>= fun r => match r with
      | .ok e => conclude a pc next e
      | .error f => raise a pc f) = operate (.activation a pc next .push) o v w := by
  have fails (f : Failure) : resumeActivation a pc next .push (.error f) = raise a pc f := rfl
  refine apply_eq o v w (fun v => ?_) fails
  unfold Site.pushResult
  rw [bind_assoc]
  rfl

theorem applyBranch_eq {i : Nat} {n : UInt32} (hn : a.seq.code.u32At? (pc + i) = some n) (o : Operator) (v w : Value) :
    ((Site.applyBranch ⟨a, pc, op⟩ o v w i).run >>= fun r => match r with
      | .ok e => conclude a pc (pc + op.size) e
      | .error f => raise a pc f) =
        operate (.activation a pc (pc + op.size) (.branch (some (pc + op.size + n.toInt32.toInt)))) o v w := by
  have distance : Site.distance? ⟨a, pc, op⟩ i = some n.toInt32.toInt := congrArg (Option.map _) hn
  have read : Site.i32 ⟨a, pc, op⟩ i = pure n.toInt32.toInt := by
    unfold Site.i32 Site.u32
    rw [hn]
    rfl
  unfold Site.applyBranch
  rw [distance]
  refine apply_eq o v w (fun v => ?_) fun _ => rfl
  rw [read]
  unfold resumeActivation
  dsimp only
  cases v.isTruthy <;> rfl

theorem pop_both {β : Type} (f : Value → Value → Attempt β) (hs : m.context.stack.toList = l ++ [v, w]) :
    (do let rhs ← pop; let lhs ← pop; f lhs rhs : Attempt β).run m =
      (f v w).run (m.withStack m.context.stack.popped.popped) := by
  have right : m.context.stack.toList = (l ++ [v]) ++ [w] := by rw [hs, List.append_assoc]; rfl
  have left : (m.withStack m.context.stack.popped).context.stack.toList = l ++ [v] := Stack.toList_popped right
  exact (Attempt.run_lift_bind (pop_eq right)).trans (Attempt.run_lift_bind (pop_eq left))

theorem pop_left {β : Type} {n : UInt32} (f : Value → Value → Attempt β) (hn : a.seq.code.u32At? (pc + 1) = some n)
    (hs : m.context.stack.toList = l ++ [v]) :
    (do let rhs ← Site.immediate ⟨a, pc, op⟩; let lhs ← pop; f lhs rhs : Attempt β).run m =
      (f v (.ofInt n.toInt32.toInt)).run (m.withStack m.context.stack.popped) := by
  have read : Site.immediate ⟨a, pc, op⟩ m = .ok (.ofInt n.toInt32.toInt) m := by
    unfold Site.immediate Site.i32 Site.u32
    rw [hn]
    rfl
  exact (Attempt.run_lift_bind read).trans (Attempt.run_lift_bind (pop_eq hs))

theorem exec_binary (ho : Code.opcodeAt? a.seq.code pc = some op) (hop : Operator.ofOpcode? op = some o)
    (hs : m.context.stack.toList = l ++ [v, w]) : exec a pc m =
      operate (.activation a pc (pc + op.size) .push) o v w (m.withStack m.context.stack.popped.popped) := by
  rw [exec_of_run ho ((congrArg (·.run m) (Site.perform_binary hop)).trans (pop_both _ hs)), applyPush_eq]

theorem exec_immediate {n : UInt32} (ho : Code.opcodeAt? a.seq.code pc = some op) (hop : Operator.ofImmediate? op = some o)
    (hn : a.seq.code.u32At? (pc + 1) = some n) (hs : m.context.stack.toList = l ++ [v]) : exec a pc m =
      operate (.activation a pc (pc + op.size) .push) o v (.ofInt n.toInt32.toInt) (m.withStack m.context.stack.popped) := by
  rw [exec_of_run ho ((congrArg (·.run m) (Site.perform_immediate hop)).trans (pop_left _ hn hs)), applyPush_eq]

theorem exec_branch {d : UInt32} (ho : Code.opcodeAt? a.seq.code pc = some op) (hop : Operator.ofBranch? op = some o)
    (hd : a.seq.code.u32At? (pc + 1) = some d) (hs : m.context.stack.toList = l ++ [v, w]) : exec a pc m =
      operate (.activation a pc (pc + op.size) (.branch (some (pc + op.size + d.toInt32.toInt)))) o v w
        (m.withStack m.context.stack.popped.popped) := by
  rw [exec_of_run ho ((congrArg (·.run m) (Site.perform_branch hop)).trans (pop_both _ hs)), applyBranch_eq hd]

theorem exec_immediateBranch {n d : UInt32} (ho : Code.opcodeAt? a.seq.code pc = some op)
    (hop : Operator.ofImmediateBranch? op = some o) (hn : a.seq.code.u32At? (pc + 1) = some n)
    (hd : a.seq.code.u32At? (pc + 5) = some d) (hs : m.context.stack.toList = l ++ [v]) : exec a pc m =
      operate (.activation a pc (pc + op.size) (.branch (some (pc + op.size + d.toInt32.toInt)))) o v
        (.ofInt n.toInt32.toInt) (m.withStack m.context.stack.popped) := by
  rw [exec_of_run ho ((congrArg (·.run m) (Site.perform_immediateBranch hop)).trans (pop_left _ hn hs)), applyBranch_eq hd]

theorem exec_pushVal {u : UInt64} (ho : Code.opcodeAt? a.seq.code pc = some .pushVal)
    (hu : a.seq.code.u64At? (pc + 1) = some u) (hroom : m.context.stack.len < m.context.stack.capacity) :
    exec a pc m = .ok (.exec a (pc + Code.Opcode.pushVal.size)) (m.withStack (m.context.stack.append ⟨u⟩)) := by
  have read : Site.u64 ⟨a, pc, .pushVal⟩ 1 m = .ok u m := by
    unfold Site.u64
    rw [hu]
    rfl
  have pushed : (Site.mk a pc .pushVal).perform.run m = .ok (.ok .next) (m.withStack (m.context.stack.append ⟨u⟩)) :=
    (Attempt.run_lift_bind read).trans (Attempt.run_lift_bind (push_apply ⟨u⟩ hroom))
  rw [exec_of_ok ho pushed]
  rfl

theorem exec_jmpIfFalse {d : UInt32} (ho : Code.opcodeAt? a.seq.code pc = some .jmpIfFalse)
    (hd : a.seq.code.u32At? (pc + 1) = some d) (hs : m.context.stack.toList = l ++ [v]) : exec a pc m =
      .ok (.exec a (if v.isTruthy then pc + Code.Opcode.jmpIfFalse.size
        else pc + Code.Opcode.jmpIfFalse.size + d.toInt32.toInt)) (m.withStack m.context.stack.popped) := by
  have read (m : Machine) : Site.i32 ⟨a, pc, .jmpIfFalse⟩ 1 m = .ok d.toInt32.toInt m := by
    unfold Site.i32 Site.u32
    rw [hd]
    rfl
  have jumped : (Site.mk a pc .jmpIfFalse).perform.run m =
      .ok (.ok (if v.isTruthy then .next else .jump d.toInt32.toInt)) (m.withStack m.context.stack.popped) := by
    refine (Attempt.run_lift_bind (pop_eq hs)).trans ?_
    cases v.isTruthy with
    | true => rfl
    | false => exact Attempt.run_lift_bind (read _)
  rw [exec_of_ok ho jumped]
  cases v.isTruthy <;> rfl

end Exec

/-! ## The same activation with other code -/

/-- An activation, other code for it, and where each place of the code is in the other. -/
structure Recoding where
  act : Activation
  seq : Code.Sequence
  place : Int → Int

namespace Recoding

open Exec

def other (c : Recoding) : Activation := { c.act with seq := c.seq }

variable {c : Recoding} {m m' : Machine} {pc : Int} {q : Nat} {f : Failure} {r : Except Failure Value} {o o' : Outturn}
  {inner : List Int}

/-- The same comes next, in the other code where the one is in the code. -/
inductive Follows (c : Recoding) : Control → Control → Prop where
  | exec (x : Int) : Follows c (.exec c.act x) (.exec c.other (c.place x))
  | deliver (r : Except Failure Value) : Follows c (.deliver r) (.deliver r)

/-- It comes to the same, in machines that are alike. After a defect, other calls may be left in them. -/
inductive Accords (c : Recoding) : Outturn → Outturn → Prop where
  | ok {x y : Control} {m m' : Machine} : c.Follows x y → m.Alike m' → Accords c (.ok x m) (.ok y m')
  | error {d : Defect} {m m' : Machine} : m.Resembles m' → Accords c (.error d m) (.error d m')

/-- What fails at a place is rescued where it is at the other place. -/
def Rescues (c : Recoding) (pc q : Int) : Prop := ∀ f, handler? c.seq q f = (handler? c.act.seq pc f).map c.place

def before (c : Recoding) (m : Machine) : Stretch := ⟨c.act, [], m.context.fiber, m.context.konts⟩

def behind (c : Recoding) (inner : List Int) (m : Machine) : Stretch := ⟨c.other, inner, m.context.fiber, m.context.konts⟩

/-- An activation may take a signal as its own, and leaves the thread in one way. -/
theorem leave_cases (a : Activation) (r : Except Failure Value) (m : Machine) :
    (∃ r', leave a r m = giveBack a r' m) ∨ ∃ d m', leave a r m = .error d m' := by
  cases r with
  | ok v => exact .inl ⟨.ok v, rfl⟩
  | error f =>
    unfold leave
    dsimp only
    split
    · cases h : sameFrame f.target a.frame m with
      | error d m' => exact .inr ⟨d, m', bind_of_error h⟩
      | ok b m' =>
        obtain ⟨-, rfl⟩ := sameFrame_ok h
        cases b with
        | true => exact .inl ⟨_, bind_of_ok h⟩
        | false => exact .inl ⟨_, bind_of_ok h⟩
    · exact .inl ⟨.error f, rfl⟩

theorem raise_likened {q : Int} (hc : c.Rescues pc q) (hm : m.Alike m') (h : m = m' ∨ Ordinary (.error f)) :
    Likened m c.Follows (raise c.act pc f m) (raise c.other q f m') := by
  unfold raise
  rw [show handler? c.other.seq q f = _ from hc f]
  cases handler? c.act.seq pc f with
  | some dest =>
    have caught : Likewise c.Follows
        (do resize (c.act.frame + Frame.words); push (← alloc (.exception f)); return .exec c.act dest)
        (do resize (c.act.frame + Frame.words); push (← alloc (.exception f)); return .exec c.other (c.place dest)) :=
      .seq (.resize _) fun _ => .seq (.of_detached (.alloc _)) fun _ => .seq (.push _) fun _ => .pure (.exec dest)
    exact caught m m' hm
  | none =>
    show Likened m c.Follows (leave c.act (.error f) m) (leave c.act (.error f) m')
    rcases h with rfl | h
    · rcases leave_cases c.act (.error f) m with ⟨r, hr⟩ | ⟨d, m', hd⟩
      · rw [hr]
        exact Likewise.giveBack c.act r (.deliver r) m m (.refl m)
      · rw [hd]
        exact .error (.refl m')
    · rw [leave_ordinary h]
      exact Likewise.giveBack c.act (.error f) (.deliver (.error f)) m m' hm

theorem concludes_of_likened {m₀ : Machine} (h : Likened m c.Follows o o') (hat : (c.before m₀).At m)
    (hout : ∀ x, c.place x ∉ inner) : (c.before m₀).Concludes (c.behind inner m₀) c.Accords o o' := by
  cases h with
  | error h => exact ⟨_, _, .fails, .fails, .error h.resembles⟩
  | @ok x y m₁ m₁' hxy h hstands =>
    have there : (c.before m₀).At m₁ := ⟨hstands.1.trans hat.1, hstands.2.trans hat.2⟩
    have there' : (c.behind inner m₀).At m₁' := by
      obtain ⟨t, -, rfl⟩ := h
      exact there
    refine ⟨_, _, .leaves there fun hin => ?_, .leaves there' fun hin => ?_, .ok hxy h⟩
    · obtain ⟨-, z, hz, -⟩ := hin
      cases hz
    · obtain ⟨-, z, hz, hy⟩ := hin
      cases hxy with
      | exec x =>
        obtain ⟨-, rfl⟩ := Control.exec.inj hy
        exact hout x hz
      | deliver r => cases hy

theorem push_concludes {m₀ : Machine} {q next next' : Int} (hc : c.Rescues pc q) (hn : c.place next = next')
    (hout : ∀ x, c.place x ∉ inner) (hm : m.Alike m') (hat : (c.before m₀).At m) (hr : m = m' ∨ Ordinary r) :
    (c.before m₀).Concludes (c.behind inner m₀) c.Accords (resumeActivation c.act pc next .push r m)
      (resumeActivation c.other q next' .push r m') := by
  refine concludes_of_likened ?_ hat hout
  cases r with
  | error f => exact raise_likened hc hm hr
  | ok v =>
    have pushed : Likewise c.Follows (do push v; return .exec c.act next) (do push v; return .exec c.other next') :=
      .seq (.push v) fun _ => .pure (hn ▸ .exec next)
    exact pushed m m' hm

theorem branch_concludes {m₀ : Machine} {q : Nat} {next dest : Int} {d : UInt32} (hc : c.Rescues pc q)
    (ho : Code.opcodeAt? c.seq.code (q + 1) = some .jmpIfFalse) (hd : c.seq.code.u32At? (q + 1 + 1) = some d)
    (hn : c.place next = (q + 1 : Nat) + Code.Opcode.jmpIfFalse.size)
    (hdest : c.place dest = (q + 1 : Nat) + Code.Opcode.jmpIfFalse.size + d.toInt32.toInt)
    (hin : ((q + 1 : Nat) : Int) ∈ inner) (hout : ∀ x, c.place x ∉ inner) (hm : m.Alike m') (hat : (c.before m₀).At m)
    (hroom : m.context.stack.len < m.context.stack.capacity) (hr : m = m' ∨ Ordinary r) :
    (c.before m₀).Concludes (c.behind inner m₀) c.Accords (resumeActivation c.act pc next (.branch (some dest)) r m)
      (resumeActivation c.other q (q + 1 : Nat) .push r m') := by
  cases r with
  | error f => exact concludes_of_likened (raise_likened hc hm hr) hat hout
  | ok v =>
    have given : resumeActivation c.act pc next (.branch (some dest)) (.ok v) m =
        .ok (.exec c.act (if v.isTruthy then next else dest)) m := by
      unfold resumeActivation
      dsimp only
      cases v.isTruthy <;> rfl
    have room : m'.context.stack.len < m'.context.stack.capacity := by rwa [← hm.stack.len, ← hm.stack.capacity]
    have pushed : resumeActivation c.other q (q + 1 : Nat) .push (.ok v) m' =
        .ok (.exec c.other (q + 1 : Nat)) (m'.withStack (m'.context.stack.append v)) :=
      bind_of_ok (push_apply v room)
    have there' : (c.behind inner m₀).At (m'.withStack (m'.context.stack.append v)) := by
      obtain ⟨t, -, rfl⟩ := hm
      exact hat
    have jumped := exec_jmpIfFalse (a := c.other) (m := m'.withStack (m'.context.stack.append v)) ho hd
      (Stack.toList_append _ _)
    have alike : m.Alike (m'.withStack (m'.context.stack.append v).popped) := by
      obtain ⟨t, ht, rfl⟩ := hm
      exact ⟨(t.append v).popped, ⟨ht.id, ht.capacity, (Stack.toList_popped (Stack.toList_append t v)).trans ht.live⟩, rfl⟩
    have follows : c.Follows (.exec c.act (if v.isTruthy then next else dest))
        (.exec c.other (if v.isTruthy then ((q + 1 : Nat) : Int) + Code.Opcode.jmpIfFalse.size
          else (q + 1 : Nat) + Code.Opcode.jmpIfFalse.size + d.toInt32.toInt)) := by
      rw [← hdest, ← hn, ← apply_ite c.place]
      exact .exec _
    obtain ⟨o, o', ho, ho', hq⟩ := concludes_of_likened (m := m) (.ok follows alike (.refl m)) hat hout
    refine ⟨o, o', given ▸ ho, ?_, hq⟩
    rw [pushed]
    refine .stays there' hin ?_
    exact jumped ▸ ho'

end Recoding

/-! ## Fused instructions -/

/-- An instruction that does the work of others: it applies the operator of another one, may have the right operand as part
of its code, and may jump when the value is false. -/
structure Fusion where
  fused : Code.Opcode
  plain : Code.Opcode
  immediate : Bool
  branch : Bool
  deriving DecidableEq

namespace Fusion

open Exec

def all : List Fusion := [
  ⟨.addImm, .add, true, false⟩, ⟨.subImm, .sub, true, false⟩, ⟨.eqImm, .eq, true, false⟩, ⟨.neImm, .ne, true, false⟩,
  ⟨.gtImm, .gt, true, false⟩, ⟨.geImm, .ge, true, false⟩, ⟨.ltImm, .lt, true, false⟩, ⟨.leImm, .le, true, false⟩,
  ⟨.jmpUnlessEq, .eq, false, true⟩, ⟨.jmpUnlessNe, .ne, false, true⟩, ⟨.jmpUnlessGt, .gt, false, true⟩,
  ⟨.jmpUnlessGe, .ge, false, true⟩, ⟨.jmpUnlessLt, .lt, false, true⟩, ⟨.jmpUnlessLe, .le, false, true⟩,
  ⟨.jmpUnlessEqImm, .eq, true, true⟩, ⟨.jmpUnlessNeImm, .ne, true, true⟩, ⟨.jmpUnlessGtImm, .gt, true, true⟩,
  ⟨.jmpUnlessGeImm, .ge, true, true⟩, ⟨.jmpUnlessLtImm, .lt, true, true⟩, ⟨.jmpUnlessLeImm, .le, true, true⟩]

/-- The operator that the machine applies for the fused instruction. -/
def operator? (f : Fusion) : Option Operator :=
  match f.immediate, f.branch with
  | true, false => Operator.ofImmediate? f.fused
  | false, true => Operator.ofBranch? f.fused
  | true, true => Operator.ofImmediateBranch? f.fused
  | false, false => none

theorem exists_operator : ∀ f ∈ all, ∃ o, f.operator? = some o ∧ Operator.ofOpcode? f.plain = some o ∧
    f.plain.size = 1 := by
  have same : ∀ f ∈ all, f.operator? = Operator.ofOpcode? f.plain ∧ (Operator.ofOpcode? f.plain).isSome ∧ f.plain.size = 1 := by
    decide
  intro f hf
  obtain ⟨h, hsome, hsize⟩ := same f hf
  obtain ⟨o, ho⟩ := Option.isSome_iff_exists.mp hsome
  exact ⟨o, h.trans ho, ho, hsize⟩

theorem exists_fused_iff (op : Code.Opcode) : (∃ f ∈ all, f.fused = op) ↔
    (Operator.ofImmediate? op).isSome ∨ (Operator.ofBranch? op).isSome ∨ (Operator.ofImmediateBranch? op).isSome := by
  cases op <;> decide

variable {f : Fusion} {code : Bytes} {pc q : Nat} {n d : UInt32}

def operand (n : UInt32) : Value := .ofInt n.toInt32.toInt

/-- The fused instruction stands at a place, with its operands. -/
structure Fused (f : Fusion) (code : Bytes) (pc : Nat) (n d : UInt32) : Prop where
  opcode : Code.opcodeAt? code pc = some f.fused
  operand : f.immediate = true → code.u32At? (pc + 1) = some n
  distance : f.branch = true → code.u32At? (pc + if f.immediate then 5 else 1) = some d

def operatorAt (f : Fusion) (pc : Nat) : Nat := if f.immediate then pc + Code.Opcode.pushVal.size else pc

/-- The instructions that it stands for stand at a place. -/
structure Expanded (f : Fusion) (code : Bytes) (pc : Nat) (n d : UInt32) : Prop where
  operand : f.immediate = true →
    Code.opcodeAt? code pc = some .pushVal ∧ code.u64At? (pc + 1) = some (Fusion.operand n).bits
  opcode : Code.opcodeAt? code (f.operatorAt pc) = some f.plain
  jump : f.branch = true → Code.opcodeAt? code (f.operatorAt pc + 1) = some .jmpIfFalse ∧
    code.u32At? (f.operatorAt pc + 1 + 1) = some d

def inner (f : Fusion) (pc : Nat) : List Int :=
  (if f.immediate then [(f.operatorAt pc : Int)] else []) ++ if f.branch then [((f.operatorAt pc + 1 : Nat) : Int)] else []

def stop (f : Fusion) (pc : Nat) : Int :=
  (f.operatorAt pc + 1 : Nat) + if f.branch then (Code.Opcode.jmpIfFalse.size : Int) else 0

/-- In the other code, the fused instruction at `pc` has given way to the instructions from `q` on. What is rescued in the one
code is rescued in the other, and nothing leads into the midst of the instructions. -/
structure Unfolds (f : Fusion) (c : Recoding) (pc q : Nat) (n d d' : UInt32) : Prop where
  fused : f.Fused c.act.seq.code pc n d
  expanded : f.Expanded c.seq.code q n d'
  next : c.place (pc + f.fused.size) = f.stop q
  target : f.branch = true → c.place (pc + f.fused.size + d.toInt32.toInt) = f.stop q + d'.toInt32.toInt
  rescues : c.Rescues pc (f.operatorAt q)
  outside : ∀ x, c.place x ∉ f.inner q

def pending (f : Fusion) (pc : Nat) (d : UInt32) : Pending :=
  if f.branch then .branch (some (pc + f.fused.size + d.toInt32.toInt)) else .push

def onStack (f : Fusion) (w : Value) : List Value := if f.immediate then [] else [w]

def right (f : Fusion) (n : UInt32) (w : Value) : Value := if f.immediate then operand n else w

def below (f : Fusion) (s : Stack) : Stack := if f.immediate then s.popped else s.popped.popped

def ready (f : Fusion) (n : UInt32) (m : Machine) : Machine :=
  if f.immediate then m.withStack (m.context.stack.append (operand n)) else m

variable {a : Activation} {m : Machine} {o : Operator} {l : List Value} {v w : Value} {c : Recoding} {d' : UInt32}

theorem toList_below (hs : m.context.stack.toList = l ++ v :: f.onStack w) : (f.below m.context.stack).toList = l := by
  obtain ⟨fused, plain, immediate, branch⟩ := f
  cases immediate with
  | true => exact Stack.toList_popped hs
  | false => exact Stack.toList_popped (Stack.toList_popped (v := w) (hs.trans (List.append_cons l v [w])))

theorem toList_ready (hs : m.context.stack.toList = l ++ v :: f.onStack w) :
    (f.ready n m).context.stack.toList = l ++ [v, f.right n w] := by
  obtain ⟨fused, plain, immediate, branch⟩ := f
  cases immediate with
  | true =>
    have pushed : (m.context.stack.append (operand n)).toList = l ++ [v, operand n] := by
      rw [Stack.toList_append, hs, List.append_assoc]
      rfl
    exact pushed
  | false => exact hs

theorem exec_fused (h : f.Fused a.seq.code pc n d) (ho : f.operator? = some o)
    (hs : m.context.stack.toList = l ++ v :: f.onStack w) : exec a pc m =
      operate (.activation a pc (pc + f.fused.size) (f.pending pc d)) o v (f.right n w)
        (m.withStack (f.below m.context.stack)) := by
  obtain ⟨fused, plain, immediate, branch⟩ := f
  cases immediate with
  | true =>
    cases branch with
    | true => exact exec_immediateBranch h.opcode ho (h.operand rfl) (h.distance rfl) hs
    | false => exact exec_immediate h.opcode ho (h.operand rfl) hs
  | false =>
    cases branch with
    | true => exact exec_branch h.opcode ho (h.distance rfl) hs
    | false => cases ho

theorem exec_plain (h : f.Expanded a.seq.code q n d) (ho : Operator.ofOpcode? f.plain = some o) (hsize : f.plain.size = 1)
    (hs : m.context.stack.toList = l ++ v :: f.onStack w) : exec a (f.operatorAt q) (f.ready n m) =
      operate (.activation a (f.operatorAt q) (f.operatorAt q + 1 : Nat) .push) o v (f.right n w)
        ((f.ready n m).withStack (f.ready n m).context.stack.popped.popped) := by
  rw [exec_binary h.opcode ho (toList_ready hs), hsize]
  rfl

theorem matches_of (h : f.Unfolds c pc q n d d') (m : Machine) : (c.before m).Matches (c.behind (f.inner q) m)
    (.activation c.act pc (pc + f.fused.size) (f.pending pc d))
    (.activation c.other (f.operatorAt q) (f.operatorAt q + 1 : Nat) .push) c.Accords where
  thread := rfl
  konts := rfl
  driven := rfl
  defect _ _ _ hm := .error hm
  concludes r m₁ m₁' hm hat hroom hr := by
    obtain ⟨fused, plain, immediate, branch⟩ := f
    cases branch with
    | true =>
      obtain ⟨ho, hd⟩ := h.expanded.jump rfl
      exact Recoding.branch_concludes h.rescues ho hd h.next (h.target rfl) (List.mem_append_right _ List.mem_cons_self)
        h.outside hm hat hroom hr
    | false => exact Recoding.push_concludes h.rescues (h.next.trans (Int.add_zero _)) h.outside hm hat hr

theorem below_room (hs : m.context.stack.toList = l ++ v :: f.onStack w)
    (hroom : m.context.stack.len < m.context.stack.capacity) :
    (f.below m.context.stack).len + 2 ≤ (f.below m.context.stack).capacity := by
  have len : (f.below m.context.stack).len = l.length := by rw [← Stack.length_toList, toList_below hs]
  have capacity : (f.below m.context.stack).capacity = m.context.stack.capacity := by
    unfold below
    split <;> rfl
  have long : l.length + 1 ≤ m.context.stack.len := by
    rw [← Stack.length_toList, hs, List.length_append, List.length_cons]
    omega
  omega

/-- The stack without the operands is the same but for the slot of one that was pushed. -/
theorem ready_popped (hs : m.context.stack.toList = l ++ v :: f.onStack w) : ∃ t, (f.ready n m).context.stack.popped.popped = t ∧
    (f.ready n m).withStack t = m.withStack t ∧ t.Alike (f.below m.context.stack) ∧
    ∀ x y, (t.append x).append y = ((f.below m.context.stack).append x).append y := by
  have list := toList_ready (n := n) hs
  have live : (f.ready n m).context.stack.popped.popped.toList = (f.below m.context.stack).toList := by
    rw [toList_below hs, Stack.toList_popped (Stack.toList_popped (list.trans (List.append_cons l v [f.right n w])))]
  obtain ⟨fused, plain, immediate, branch⟩ := f
  cases immediate with
  | true => exact ⟨_, rfl, rfl, ⟨rfl, rfl, live⟩, Stack.append_popped (operand n) hs⟩
  | false => exact ⟨_, rfl, rfl, ⟨rfl, rfl, live⟩, fun _ _ => rfl⟩

/-- The operands are pushed, and the operator is next. -/
theorem executes_ready (h : f.Expanded c.seq.code q n d) (m : Machine)
    (hroom : m.context.stack.len < m.context.stack.capacity) (hm : (Moment.mk (.exec c.other q) m []).Orderly) :
    (∀ trail r, (c.behind (f.inner q) m).Executes ⟨.exec c.other q, m, []⟩ trail r ↔
      (c.behind (f.inner q) m).Executes ⟨.exec c.other (f.operatorAt q), f.ready n m, []⟩ trail r) ∧
    (Moment.mk (.exec c.other (f.operatorAt q)) (f.ready n m) []).Orderly := by
  obtain ⟨fused, plain, immediate, branch⟩ := f
  cases immediate with
  | true =>
    obtain ⟨ho, hu⟩ := h.operand rfl
    have steps : (Moment.mk (.exec c.other q) m []).Steps m.context.fiber
        (.ok (.exec c.other (q + Code.Opcode.pushVal.size)) (m.withStack (m.context.stack.append (operand n)))) :=
      exec_pushVal (a := c.other) ho hu hroom ▸ .exec c.other q m
    let next : Moment := ⟨.exec c.other (q + Code.Opcode.pushVal.size), m.withStack (m.context.stack.append (operand n)), []⟩
    exact ⟨fun _ _ => Stretch.executes_iff_of_stays (s := c.behind _ m) (q := next) steps rfl
      ⟨⟨rfl, rfl⟩, _, List.mem_append_left _ List.mem_cons_self, rfl⟩, hm.next (q := next) (steps.leads rfl)⟩
  | false => exact ⟨fun _ _ => Iff.rfl, hm⟩

/-- A fused instruction has the effect of the instructions that it stands for, whatever its operator calls. Every execution
of the one has one of the others, in which the same is done in the same order away from the code, and which comes to the
same: the same code goes on, in the same place, or the same outcome is handed on. -/
theorem executes_alike (hf : f ∈ all) (h : f.Unfolds c pc q n d d') (hm : Underway (.exec c.act pc) m)
    (hs : m.context.stack.toList = l ++ v :: f.onStack w) (hroom : m.context.stack.len < m.context.stack.capacity) :
    (∀ trail r, (c.before m).Executes ⟨.exec c.act pc, m, []⟩ trail r → ∃ trail' r',
      (c.behind (f.inner q) m).Executes ⟨.exec c.other q, m, []⟩ trail' r' ∧
      List.Forall₂ Moment.Resembles trail trail' ∧ c.Accords r r') ∧
    ∀ trail' r', (c.behind (f.inner q) m).Executes ⟨.exec c.other q, m, []⟩ trail' r' → ∃ trail r,
      (c.before m).Executes ⟨.exec c.act pc, m, []⟩ trail r ∧ List.Forall₂ Moment.Resembles trail trail' ∧ c.Accords r r' := by
  obtain ⟨o, ho, hplain, hsize⟩ := exists_operator f hf
  have orderly : (Moment.mk (.exec c.act pc) m []).Orderly := ⟨hm.ordered.1, hm.ordered.2, hm.threaded⟩
  have orderly' : (Moment.mk (.exec c.other q) m []).Orderly :=
    ⟨hm.ordered.1, ⟨hm.ordered.2.fits, hm.ordered.2.owes⟩, hm.threaded⟩
  have frame : m.context.frame ≠ none := fun hn => by cases hn.symm.trans hm.ordered.2.fits
  have steps := Moment.Steps.exec (t := m.context.fiber) (H := []) c.act pc m
  rw [exec_fused h.fused ho hs] at steps
  have steps' := Moment.Steps.exec (t := m.context.fiber) (H := []) c.other (f.operatorAt q) (f.ready n m)
  obtain ⟨t, ht, same, alike, full⟩ := ready_popped (n := n) hs
  rw [exec_plain (a := c.other) h.expanded hplain hsize hs, ht, same] at steps'
  obtain ⟨iff, orderly'⟩ := executes_ready h.expanded m hroom orderly'
  have machines : (m.withStack (f.below m.context.stack)).Alike (m.withStack t) := ⟨t, alike, rfl⟩
  have room := below_room hs hroom
  constructor
  · intro trail r hx
    obtain ⟨trail', r', hx', hall, hr⟩ := (matches_of h m).operate machines ⟨rfl, rfl⟩ frame (full _ _) room steps rfl orderly
      steps' rfl hx
    exact ⟨trail', r', (iff _ _).mpr hx', hall, hr⟩
  · intro trail' r' hx
    obtain ⟨trail, r, hx', hall, hr⟩ := (matches_of h m).symm.operate machines.symm ⟨rfl, rfl⟩ frame (full _ _).symm
      (alike.len ▸ alike.capacity ▸ room) steps' rfl orderly' steps rfl ((iff _ _).mp hx)
    exact ⟨trail, r, hx', (hall.imp fun _ _ => Moment.Resembles.symm).flip, hr⟩

end Fusion

/-! ### A comparison with a number of the code -/

/-- Code that compares 5 with 7 by one instruction. -/
def Code.comparing : Code.Sequence where
  name := .none
  kind := .method
  code := (Opcode.pushVal.byte :: Bytes.le64 (Value.ofInt 5).bits ++
    [Opcode.jmpUnlessLtImm.byte, 7, 0, 0, 0, 1, 0, 0, 0, Opcode.pushNil.byte, Opcode.ret.byte]).toArray

def Code.comparingApart : Code.Sequence where
  name := .none
  kind := .method
  code := (Opcode.pushVal.byte :: Bytes.le64 (Value.ofInt 5).bits ++
    Opcode.pushVal.byte :: Bytes.le64 (Value.ofInt 7).bits ++
    [Opcode.lt.byte, Opcode.jmpIfFalse.byte, 1, 0, 0, 0, Opcode.pushNil.byte, Opcode.ret.byte]).toArray

namespace Fusion

open Exec

def withComparing : Machine := after (addFunction (.ofSequence Code.comparing)) (.blank {})

theorem underway_withComparing : Underway (.host .idle) withComparing :=
  .next (.blank {} .idle) (.tend {
    steady := .of_stack _ rfl rfl rfl rfl
    context := rfl
    sound := fun hm => hm.addFunction fun seq h => by
      cases h
      decide })

def apart (x : Int) : Int := if x < 18 then min x 9 else x + 6

/-- A comparison that jumps when a value is not less than a number. -/
def unlessLess : Fusion := ⟨.jmpUnlessLtImm, .lt, true, true⟩

theorem unfolds_comparing {a : Activation} (hc : a.seq.code = Code.comparing.code) (hh : a.seq.handlers.isEmpty = true) :
    unlessLess.Unfolds ⟨a, Code.comparingApart, apart⟩ 9 9 7 1 1 where
  fused := by
    rw [hc]
    exact ⟨Code.opcodeAt?_byte .jmpUnlessLtImm (by decide +kernel), fun _ => by decide +kernel,
      fun _ => by decide +kernel⟩
  expanded := by
    show unlessLess.Expanded Code.comparingApart.code 9 7 1
    exact ⟨fun _ => ⟨Code.opcodeAt?_byte .pushVal (by decide +kernel), by decide +kernel⟩,
      Code.opcodeAt?_byte .lt (by decide +kernel),
      fun _ => ⟨Code.opcodeAt?_byte .jmpIfFalse (by decide +kernel), by decide +kernel⟩⟩
  next := (by decide +kernel : apart 18 = 24)
  target _ := (by decide +kernel : apart 19 = 25)
  rescues f := by
    have none : a.seq.handlers = [] := List.isEmpty_iff.mp hh
    unfold handler?
    dsimp only
    rw [none]
    split <;> rfl
  outside x := by
    rw [show inner unlessLess 9 = [18, 19] by decide +kernel]
    show apart x ∉ _
    unfold apart
    simp only [List.mem_cons, List.not_mem_nil, or_false, not_or]
    split <;> omega

/-- The comparison holds, and the code goes on behind it. -/
theorem executes_alike_fiveBySeven : ∃ (c : Recoding) (m : Machine), Underway (.exec c.act 9) m ∧
    c.act.seq.code = Code.comparing.code ∧ c.seq = Code.comparingApart ∧ ∃ m₁ m₂,
      (c.before m).Executes ⟨.exec c.act 9, m, []⟩ [] (.ok (.exec c.act 18) m₁) ∧
      (c.behind [18, 19] m).Executes ⟨.exec c.other 9, m, []⟩ [] (.ok (.exec c.other 24) m₂) ∧ m₁.Alike m₂ := by
  have ran : (Move.all [.enter (.method ⟨1⟩ .nil []), .step, .step] (.host .idle) withComparing).any (Machine.atCode 9 fun a m =>
      a.seq.code = Code.comparing.code ∧ a.seq.handlers.isEmpty = true ∧
        m.context.stack.toList = m.context.stack.toList.dropLast ++ [.ofInt 5] ∧
        m.context.stack.len < m.context.stack.capacity) = true := by
    decide +kernel
  obtain ⟨a, m, called, ran⟩ := Machine.exists_of_atCode ran
  obtain ⟨code, handlers, live, room⟩ := of_decide_eq_true ran
  have arrived := Move.underway underway_withComparing called
  have unfolds := unfolds_comparing code handlers
  obtain ⟨forth, -⟩ := executes_alike (w := .nil) (by decide) unfolds arrived live room
  have compared : exec a 9 m = .ok (.exec a 18) (m.withStack m.context.stack.popped) :=
    (exec_fused (f := unlessLess) (w := .nil) unfolds.fused rfl live).trans rfl
  have once : (Recoding.before ⟨a, Code.comparingApart, apart⟩ m).Executes ⟨.exec a 9, m, []⟩ []
      (.ok (.exec a 18) (m.withStack m.context.stack.popped)) := by
    have steps := Moment.Steps.exec (t := m.context.fiber) (H := []) a 9 m
    rw [compared] at steps
    let next : Moment := ⟨.exec a 18, m.withStack m.context.stack.popped, []⟩
    refine .leaves (q := next) (steps.leads (q := next) rfl) ⟨rfl, rfl⟩ fun hin => ?_
    obtain ⟨-, x, hx, -⟩ := hin
    cases hx
  obtain ⟨trail', r', thrice, trails, accords⟩ := forth _ _ once
  cases trails
  cases accords with
  | ok follows alike =>
    cases follows
    exact ⟨⟨a, Code.comparingApart, apart⟩, m, arrived, code, rfl, _, _, once, thrice, alike⟩

end Fusion

end RubyMachine
