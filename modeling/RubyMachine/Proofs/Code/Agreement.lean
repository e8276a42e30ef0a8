import RubyMachine.Proofs.Code.Decoding
import RubyMachine.Proofs.Machine.Steps

/-! Renumbering, listing and running read the same instructions: `readers_agree`. -/

namespace RubyMachine

/-! ## What an attempt can give -/

/-- Every result of the attempt has the property. -/
def Attempt.Gives {α : Type} (x : Attempt α) (P : α → Prop) : Prop :=
  ∀ m m' a, x.run m = .ok (.ok a) m' → P a

namespace Attempt

variable {α β : Type} {P : β → Prop}

theorem gives_pure {b : β} (h : P b) : Gives (pure b) P := by
  rintro m m' a ha
  cases ha
  exact h

theorem gives_throw {f : Failure} : Gives (throw f : Attempt β) P := by
  rintro m m' a ha
  cases ha

/-- What is done first may be anything that says something of its result. -/
theorem gives_bind {Q : α → Prop} {x : Attempt α} {f : α → Attempt β} (hx : Gives x Q) (hf : ∀ a, Q a → Gives (f a) P) :
    Gives (x >>= f) P := by
  intro m m' b hb
  rw [ExceptT.run_bind] at hb
  obtain ⟨r, t, hr, hb⟩ := exists_of_bind hb
  cases r with
  | error e => cases hb
  | ok a => exact hf a (hx _ _ _ hr) _ _ _ hb

theorem gives_then {x : Attempt α} {f : α → Attempt β} (hf : ∀ a, Gives (f a) P) : Gives (x >>= f) P :=
  gives_bind (Q := fun _ => True) (fun _ _ _ _ => trivial) fun a _ => hf a

theorem gives_lift {x : Exec β} (h : ∀ m m' b, x m = .ok b m' → P b) : Gives (liftM x) P := by
  intro m m' b hb
  rw [ExceptT.run_liftM] at hb
  obtain ⟨a, t, ha, hb⟩ := exists_of_bind (x := x) (f := fun a => pure (Except.ok a)) hb
  cases hb
  exact h _ _ _ ha

theorem gives_ite {p : Prop} [Decidable p] {x y : Attempt β} (hx : Gives x P) (hy : Gives y P) :
    Gives (if p then x else y) P := by
  split
  · exact hx
  · exact hy

end Attempt

/-! ## Jumps -/

namespace Site

open Attempt

variable {s : Site}

/-- What an instruction with the distance `d` may lead to. -/
inductive Jumps (s : Site) (d : Int) : Effect → Prop where
  | pass : s.op ≠ .jmp → s.op ≠ .jmpBack → Jumps s d .next
  | taken : Jumps s d (.jump d)
  /-- A method is asked, and its answer decides. -/
  | asked (call : Exec Control) : Jumps s d (.wait (.branch (some (s.pc + s.op.size + d))) call)

theorem i32_of_ok {i : Nat} {d : Int} {m m' : Machine} (h : s.i32 i m = .ok d m') : s.distance? i = some d := by
  obtain ⟨n, t, hn, h⟩ := exists_of_bind h
  cases h
  rw [distance?]
  rw [u32, Exec.demand.eq_def] at hn
  cases hu : s.act.seq.code.u32At? (s.pc + i) with
  | none =>
    rw [hu] at hn
    cases hn
  | some n' =>
    rw [hu] at hn
    cases hn
    rfl

theorem gives_distance {i : Nat} {d : Int} (hd : s.distance? i = some d) : Gives (liftM (s.i32 i)) (· = d) :=
  gives_lift fun _ _ _ h => Option.some.inj ((i32_of_ok h).symm.trans hd)

theorem gives_applyBranch {op : Operator} {lhs rhs : Value} {i : Nat} {d : Int} (hd : s.distance? i = some d)
    (hj : s.op ≠ .jmp) (hb : s.op ≠ .jmpBack) : Gives (s.applyBranch op lhs rhs i) (s.Jumps d) := by
  rw [applyBranch, hd, Option.map_some]
  refine gives_then fun c => ?_
  cases c with
  | done r =>
    cases r with
    | error f => exact gives_throw
    | ok v =>
      refine gives_lift fun m m' e h => ?_
      dsimp only at h
      split at h
      · cases h
        exact .pass hj hb
      · obtain ⟨d', t, hd', h⟩ := exists_of_bind h
        cases h
        rw [Option.some.inj ((i32_of_ok hd').symm.trans hd)]
        exact .taken
  | send name negated => exact gives_pure (.asked _)

theorem gives_jump {d : Int} (hd : s.distance? 1 = some d) (hop : s.op = .jmp ∨ s.op = .jmpBack ∨ s.op = .jmpIfFalse ∨
    s.op = .jmpIfTrue) : Gives s.jump (s.Jumps d) := by
  obtain ⟨a, pc, op⟩ := s
  have taken {op : Code.Opcode} : Gives (do return .jump (← (⟨a, pc, op⟩ : Site).i32 1)) (Site.Jumps ⟨a, pc, op⟩ d) :=
    gives_bind (gives_distance hd) fun d' hd' => gives_pure (hd' ▸ .taken)
  have pass {op : Code.Opcode} (hj : op ≠ .jmp) (hb : op ≠ .jmpBack) :
      Gives (pure .next) (Site.Jumps ⟨a, pc, op⟩ d) := gives_pure (.pass hj hb)
  rcases hop with rfl | rfl | rfl | rfl
  · exact taken
  · exact gives_bind (gives_distance hd) fun d' hd' => gives_then fun _ => gives_pure (hd' ▸ .taken)
  · exact gives_then fun v => gives_ite (pass (by decide) (by decide)) taken
  · exact gives_then fun v => gives_ite taken (pass (by decide) (by decide))

/-- Every jump uses its last operand, and no other distance. -/
theorem gives_perform {d : Int} (hj : s.op.isJump = true) (hd : s.distance? (s.op.size - 4) = some d) :
    Gives s.perform (s.Jumps d) := by
  obtain ⟨a, pc, op⟩ := s
  dsimp only at hj
  cases op with
  | jmp | jmpBack | jmpIfFalse | jmpIfTrue => exact gives_jump hd (by simp)
  | jmpUnlessEq | jmpUnlessNe | jmpUnlessGt | jmpUnlessGe | jmpUnlessLt | jmpUnlessLe
  | jmpUnlessEqImm | jmpUnlessNeImm | jmpUnlessGtImm | jmpUnlessGeImm | jmpUnlessLtImm | jmpUnlessLeImm =>
    exact gives_then fun rhs => gives_then fun lhs => gives_applyBranch hd nofun nofun
  | _ => exact absurd hj (by decide)

end Site

namespace Exec

/-- How the machine goes on after a jump to `dest`: behind it, at `dest`, or as the answer of a method says. -/
inductive Leads (a : Activation) (op : Code.Opcode) (next dest : Int) : Exec Control → Prop where
  | pass : op ≠ .jmp → op ≠ .jmpBack → Leads a op next dest (pure (.exec a next))
  | taken : Leads a op next dest (pure (.exec a dest))
  | asked (k : Kont) (call : Exec Control) :
    (∀ v : Value, resumeKont k (.ok v) = pure (.exec a (if v.isTruthy then next else dest))) →
    Leads a op next dest (pushKont k >>= fun _ => call)

theorem conclude_jumps {a : Activation} {pc : Nat} {op : Code.Opcode} {d : Int} {e : Effect}
    (h : (Site.mk a pc op).Jumps d e) :
    Leads a op (pc + op.size) (pc + op.size + d) (conclude a pc (pc + op.size) e) := by
  cases h with
  | pass hj hb => exact .pass hj hb
  | taken => exact .taken
  | asked call =>
    refine .asked (.activation a pc (pc + op.size) (.branch (some (pc + op.size + d)))) call fun v => ?_
    change (if v.isTruthy then _ else _) = _
    split <;> rfl

variable {a : Activation} {pc : Nat} {op : Code.Opcode} {e : Effect} {m m' : Machine}

/-- The instruction at a place is run, and what it comes to is done. -/
theorem exec_eq (ho : Code.opcodeAt? a.seq.code pc = some op) : exec a pc m =
    ((Site.mk a pc op).perform.run >>= fun r => match r with
      | .ok e => conclude a pc (pc + op.size) e
      | .error f => raise a pc f) m := by
  obtain ⟨hpc, ho⟩ := Code.Listing.exists_of_opcodeAt? ho
  have hb : a.seq.code.getD (pc : Int).toNat 0 = a.seq.code[pc] := by simp [hpc]
  rw [exec, if_neg (by omega), if_neg (by omega)]
  dsimp only
  rw [hb, ho]
  rfl

theorem exec_of_ok (ho : Code.opcodeAt? a.seq.code pc = some op)
    (he : (Site.mk a pc op).perform.run m = .ok (.ok e) m') : exec a pc m = conclude a pc (pc + op.size) e m' := by
  rw [exec_eq ho]
  exact bind_of_ok he

end Exec

namespace Code

/-- The instruction at `pc`, its line, and where a jump goes. -/
structure Decoded (idents : Option IdentTable) (code : Bytes) (pc : Nat) (l : String) (op : Opcode) : Prop where
  found : opcodeAt? code pc = some op
  fits : pc + op.size ≤ code.size
  listed : Listing.instruction idents ⟨code, pc⟩ = (.ok l, ⟨code, (pc + op.size : Nat)⟩)
  heading : ∃ rest, l = Listing.offsetText pc ++ "  " ++ op.mnemonic ++ rest
  jump : op.isJump = true → ∃ d : Int, (∃ front, l = front ++ " (-> " ++ Listing.offsetText (pc + op.size + d) ++ ")") ∧
    ∀ a m m' e, a.seq.code = code → (Site.mk a pc op).perform.run m = .ok (.ok e) m' →
      ∃ x, Exec.Leads a op (pc + op.size) (pc + op.size + d) x ∧ Exec.exec a pc m = x m'

variable {idents : Option IdentTable} {code : Bytes}

theorem Listing.Shows.decoded {pc : Nat} {l : String} (h : Listing.Shows idents code pc l) :
    ∃ op, Decoded idents code pc l op := by
  obtain ⟨op, shown, ho, hs, hshown, rfl⟩ := h
  refine ⟨op, ho, hs, Listing.instruction_ok ho hshown, ⟨shown, rfl⟩, fun hj => ?_⟩
  have hsize := Listing.five_le_size hj
  obtain ⟨n, hn⟩ := exists_u32At? (show pc + op.size - 4 + 4 ≤ code.size by omega)
  obtain ⟨front, hfront⟩ := Listing.operands_jump idents hj hs hn
  obtain rfl := Except.ok.inj (Prod.mk.inj (hshown.symm.trans hfront)).1
  refine ⟨n.toInt32.toInt, ⟨Listing.offsetText pc ++ "  " ++ op.mnemonic ++ front, ?_⟩, fun a m m' e ha he => ?_⟩
  · simp only [Listing.lineText, String.append_assoc]
  subst ha
  have hd : (Site.mk a pc op).distance? (op.size - 4) = some n.toInt32.toInt := by
    rw [Site.distance?, ← Nat.add_sub_assoc (by omega), hn, Option.map_some]
  exact ⟨_, Exec.conclude_jumps (Site.gives_perform hj hd _ _ _ he), Exec.exec_of_ok ho he⟩

/-- The lines of a listing that goes through and finds an opcode in each place. -/
def Lists (idents : Option IdentTable) (code : Bytes) (ls : List String) : Prop :=
  Listing.lines idents code.size (.new code) = .ok ls ∧ ∀ l ∈ ls, ¬ Listing.ListsUnknown l

theorem lists_of_starts (idents : Option IdentTable) {starts : List Nat} (h : Starts code 0 starts) :
    ∃ ls, Lists idents code ls ∧ List.Forall₂ (Listing.Shows idents code) starts ls := by
  obtain ⟨ls, hls, hshow⟩ := Listing.lines_of_starts idents h (by simpa using h.length_le)
  refine ⟨ls, ⟨hls, fun l hl => ?_⟩, hshow⟩
  obtain ⟨i, hi, rfl⟩ := List.getElem_of_mem hl
  obtain ⟨op, ss, -, -, -, hline⟩ := hshow.get (hshow.length_eq ▸ hi) hi
  rw [List.get_eq_getElem, List.get_eq_getElem] at hline
  rw [hline]
  exact Listing.not_listsUnknown _ _ _

theorem Lists.starts {ls : List String} (h : Lists idents code ls) : ∃ starts, Starts code 0 starts :=
  Listing.starts_of_lines (Nat.zero_le _) (by simp) h.1 h.2

/-- Code that a walk goes through is code that is listed without unknown opcodes. Walk and listing then come to the
same offsets, and what the listing shows of a jump is where the machine goes. -/
theorem readers_agree (idents : Option IdentTable) (code : Bytes) :
    ((∀ (m : Type → Type) [Monad m] [LawfulMonad m] (r : Relocator m), ∃ x : m Bytes, r.apply code = (·, none) <$> x) ↔
      ∃ ls, Lists idents code ls) ∧
    ∀ ls, Lists idents code ls → Listing.text idents code = .ok ("\n".intercalate ls) ∧ ∃ starts : List Nat,
      (∀ (m : Type → Type) [Monad m] [LawfulMonad m] (r : Relocator m),
        r.apply code = (·, none) <$> starts.foldlM r.instruction code) ∧
      Starts code 0 starts ∧
      List.Forall₂ (fun pc l => ∃ op, Decoded idents code pc l op) starts ls := by
  have hc : code.toList = [] ++ code.toList := rfl
  refine ⟨⟨fun h => ?_, fun ⟨ls, h⟩ m _ _ r => ?_⟩, fun ls h => ?_⟩
  · obtain ⟨x, hx⟩ := h Id ⟨none, none⟩
    rw [Relocator.apply_eq] at hx
    obtain ⟨starts, hs⟩ := flaw?_eq_none_iff.1 (congrArg Prod.snd hx : _ = none)
    exact (lists_of_starts idents hs).imp fun ls h => h.1
  · obtain ⟨starts, hs⟩ := h.starts
    refine ⟨(fun ps => (render ps).toArray) <$> (pieces code.toList).mapM r.piece, ?_⟩
    rw [Relocator.apply_eq, flaw?_eq_none_iff.2 ⟨starts, hs⟩, Functor.map_map]
  · obtain ⟨starts, hs⟩ := h.starts
    obtain ⟨ls', h', hshow⟩ := lists_of_starts idents hs
    obtain rfl : ls' = ls := Except.ok.inj (h'.1.symm.trans h.1)
    refine ⟨by rw [Listing.text, h.1]; rfl, starts, fun m _ _ r => ?_, hs, hshow.imp fun _ _ => Listing.Shows.decoded⟩
    have hf := flaw?_eq_none_iff.2 ⟨starts, hs⟩
    rw [hs.unique (starts_startsIn hc le_rfl hf)]
    exact r.walk_starts hc rfl (by simp) hf

/-- PUSH_NIL, and a jump back to it. -/
def backAndForth : Bytes := #[5, 100, 0xfa, 0xff, 0xff, 0xff]

theorem starts_backAndForth : Starts backAndForth 0 [0, 1] :=
  .step (opcodeAt?_byte .pushNil rfl) (by decide)
    (.step (opcodeAt?_byte .jmp rfl) (by decide) .done)

theorem readers_agree_backAndForth : ∃ ls, Lists none backAndForth ls ∧
    List.Forall₂ (fun pc l => ∃ op, Decoded none backAndForth pc l op) [0, 1] ls := by
  obtain ⟨ls, h, -⟩ := lists_of_starts none starts_backAndForth
  obtain ⟨-, starts, -, hs, hd⟩ := (readers_agree none backAndForth).2 ls h
  exact ⟨ls, h, hs.unique starts_backAndForth ▸ hd⟩

end Code

end RubyMachine
