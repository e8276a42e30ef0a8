import RubyMachine.Code.Listing
import RubyMachine.Machine.Step
import RubyMachine.Proofs.Code.Pieces
import RubyMachine.Proofs.Computation

/-! Every reader of code finds the same instructions: the walk that renumbers it, the listing, and the machine that
runs it. -/

namespace RubyMachine

namespace Code

/-- The opcode at an offset. -/
def opcodeAt? (code : Bytes) (pc : Nat) : Option Opcode := code[pc]?.bind Opcode.ofByte?

/-- The offsets of the instructions from `pc` to the end of the code. -/
inductive Starts (code : Bytes) : Nat → List Nat → Prop where
  | done : Starts code code.size []
  | step {pc : Nat} {op : Opcode} {starts : List Nat} : opcodeAt? code pc = some op → pc + op.size ≤ code.size →
    Starts code (pc + op.size) starts → Starts code pc (pc :: starts)

/-- The offsets of `fuel` instructions at most, up to the first that cannot be read. -/
def startsIn : Nat → Nat → List UInt8 → List Nat
  | 0, _, _ => []
  | _ + 1, _, [] => []
  | fuel + 1, pc, b :: bs =>
    (opcode? b bs).elim [] fun op => pc :: startsIn fuel (pc + op.size) (bs.drop (width op.operands))

theorem opcodeAt?_of_getElem? {code : Bytes} {pc : Nat} {b : UInt8} (h : code[pc]? = some b) :
    opcodeAt? code pc = Opcode.ofByte? b := by
  rw [opcodeAt?, h, Option.bind_some]

theorem opcodeAt?_byte (op : Opcode) {code : Bytes} {pc : Nat} (h : code[pc]? = some op.byte) :
    opcodeAt? code pc = some op := by
  rw [opcodeAt?_of_getElem? h, op.ofByte?_byte]

theorem opcodeAt?_eq {code : Bytes} {pre bs : List UInt8} {b : UInt8} (hc : code.toList = pre ++ b :: bs) :
    opcodeAt? code pre.length = Opcode.ofByte? b := by
  refine opcodeAt?_of_getElem? ?_
  rw [← Array.getElem?_toList, hc, List.getElem?_append_right le_rfl, Nat.sub_self, List.getElem?_cons_zero]

theorem size_of_toList {code : Bytes} {pre bs : List UInt8} (hc : code.toList = pre ++ bs) :
    code.size = pre.length + bs.length := by
  rw [← Array.length_toList, hc, List.length_append]

theorem starts_startsIn {code : Bytes} {fuel : Nat} {pre bs : List UInt8} (hc : code.toList = pre ++ bs)
    (hfuel : bs.length ≤ fuel) (hf : flawIn fuel pre.length bs = none) :
    Starts code pre.length (startsIn fuel pre.length bs) := by
  have ended {pre : List UInt8} (hc : code.toList = pre ++ []) : Starts code pre.length [] := by
    rw [show pre.length = code.size by simpa using (size_of_toList hc).symm]
    exact .done
  induction fuel generalizing pre bs with
  | zero =>
    obtain rfl : bs = [] := List.length_eq_zero_iff.1 (Nat.le_zero.1 hfuel)
    exact ended hc
  | succ fuel ih =>
    cases bs with
    | nil => exact ended hc
    | cons b bs =>
      rw [flawIn] at hf
      rw [startsIn]
      cases ho : opcode? b bs with
      | none =>
        rw [ho] at hf
        cases hf
      | some op =>
        rw [ho, Option.elim_some] at hf
        have hw := width_le ho
        have hsize := size_of_toList hc
        have hpc : pre.length + op.size = (pre ++ b :: bs.take (width op.operands)).length := by
          simp [size_eq, hw]
          omega
        have hc' : code.toList = (pre ++ b :: bs.take (width op.operands)) ++ bs.drop (width op.operands) := by
          simp [hc]
        rw [List.length_cons] at hsize hfuel
        refine .step (by rw [opcodeAt?_eq hc, ofByte?_of_opcode? ho]) (by rw [size_eq]; omega) ?_
        rw [hpc] at hf ⊢
        exact ih hc' (by simp; omega) hf

theorem flawIn_of_starts {code : Bytes} {starts : List Nat} {fuel pc : Nat} {pre bs : List UInt8}
    (h : Starts code pc starts) (hc : code.toList = pre ++ bs) (hpc : pre.length = pc) : flawIn fuel pc bs = none := by
  induction h generalizing fuel pre bs with
  | done =>
    obtain rfl : bs = [] := List.length_eq_zero_iff.1 (by have := size_of_toList hc; omega)
    cases fuel <;> rfl
  | @step pc op starts ho hs _ ih =>
    have hsize := size_of_toList hc
    have hpos := op.size_pos
    cases fuel with
    | zero => rfl
    | succ fuel =>
      cases bs with
      | nil =>
        rw [List.length_nil] at hsize
        omega
      | cons b bs =>
        subst hpc
        rw [List.length_cons] at hsize
        rw [opcodeAt?_eq hc] at ho
        have hw : width op.operands ≤ bs.length := by
          rw [size_eq] at hs
          omega
        have hop : opcode? b bs = some op := by
          rw [opcode?, ho, Option.filter_some, if_pos (decide_eq_true hw)]
        rw [flawIn, hop, Option.elim_some]
        have hc' : code.toList = (pre ++ b :: bs.take (width op.operands)) ++ bs.drop (width op.operands) := by
          simp [hc]
        refine ih hc' ?_
        simp [size_eq, hw]
        omega

theorem flaw?_eq_none_iff {code : Bytes} : flaw? code.toList = none ↔ ∃ starts, Starts code 0 starts := by
  have hc : code.toList = [] ++ code.toList := rfl
  exact ⟨fun h => ⟨_, starts_startsIn hc le_rfl h⟩, fun ⟨_, h⟩ => flawIn_of_starts h hc rfl⟩

theorem Starts.unique {code : Bytes} {pc : Nat} {starts starts' : List Nat} (h : Starts code pc starts)
    (h' : Starts code pc starts') : starts = starts' := by
  induction h generalizing starts' with
  | done =>
    cases h' with
    | done => rfl
    | step ho => simp [opcodeAt?] at ho
  | step ho _ _ ih =>
    cases h' with
    | done => simp [opcodeAt?] at ho
    | step ho' _ h' =>
      cases Option.some.inj (ho.symm.trans ho')
      rw [ih h']

theorem Starts.length_le {code : Bytes} {pc : Nat} {starts : List Nat} (h : Starts code pc starts) :
    pc + starts.length ≤ code.size := by
  induction h with
  | done => exact le_rfl
  | @step pc op _ _ _ _ ih =>
    have := op.size_pos
    rw [List.length_cons]
    omega

/-! ## The walk -/

namespace Relocator

variable {m : Type → Type} [Monad m]

/-- Renumbers the instruction at `pc`. -/
def instruction (r : Relocator m) (code : Bytes) (pc : Nat) : m Bytes :=
  (opcodeAt? code pc).elim (pure code) fun op => r.rewrite op code pc

/-- The walk goes from one instruction to the next and renumbers each, up to the first that cannot be read. -/
theorem walk_startsIn [LawfulMonad m] (r : Relocator m) {code : Bytes} {n fuel : Nat} {pre bs : List UInt8}
    (hc : code.toList = pre ++ bs) (hn : code.size = n) (hfuel : bs.length ≤ fuel) : r.walk n fuel code pre.length =
      (·, flawIn fuel pre.length bs) <$> (startsIn fuel pre.length bs).foldlM r.instruction code := by
  induction fuel generalizing code pre bs with
  | zero =>
    obtain rfl : bs = [] := List.length_eq_zero_iff.1 (Nat.le_zero.1 hfuel)
    rw [walk_done r (by simp [← hn, size_of_toList hc]), startsIn, flawIn, List.foldlM_nil, map_pure]
  | succ fuel ih =>
    cases bs with
    | nil => rw [walk_done r (by simp [← hn, size_of_toList hc]), startsIn, flawIn, List.foldlM_nil, map_pure]
    | cons b bs =>
      have hsize := size_of_toList hc
      rw [List.length_cons] at hsize hfuel
      have hb : code.getD pre.length 0 = b := by
        obtain rfl : code = (pre ++ b :: bs).toArray := by rw [← hc]
        simp
      cases ho : opcode? b bs with
      | none =>
        rw [walk_stuck r (by omega) hb (by omega) ho, startsIn, flawIn, ho, Option.elim_none, Option.elim_none,
          List.foldlM_nil, map_pure]
      | some op =>
        have hw := width_le ho
        have hat := opcodeAt?_eq hc
        have hc' : code.toList = (pre ++ [b]) ++ bs.take (width op.operands) ++ bs.drop (width op.operands) := by
          simp [hc]
        have hops := operands_eq r hc' (by simpa using hw : _ = width op.operands)
        rw [List.length_append, List.length_singleton] at hops
        rw [walk_step r (by omega) hb (by omega) ho, startsIn, flawIn, ho, Option.elim_some, Option.elim_some,
          List.foldlM_cons, instruction, hat, ofByte?_of_opcode? ho, Option.elim_some, rewrite_eq, hops, map_bind, bind_map_left,
          bind_map_left]
        refine mapM_bind_congr r fun qs hqs => ?_
        rw [render_operandPieces (by simpa using hw), List.length_take, Nat.min_eq_left hw] at hqs
        have hpc : pre.length + op.size = (pre ++ [b] ++ render qs).length := by
          simp [size_eq, hqs]
          omega
        have hc'' : (pre ++ [b] ++ render qs ++ bs.drop (width op.operands)).toArray.toList =
            (pre ++ [b] ++ render qs) ++ bs.drop (width op.operands) := rfl
        rw [hpc]
        exact ih hc'' (by simp [hqs]; omega) (by simp; omega)

theorem walk_starts [LawfulMonad m] (r : Relocator m) {code : Bytes} {n fuel : Nat} {pre bs : List UInt8}
    (hc : code.toList = pre ++ bs) (hn : code.size = n) (hfuel : bs.length ≤ fuel)
    (hf : flawIn fuel pre.length bs = none) :
    r.walk n fuel code pre.length = (·, none) <$> (startsIn fuel pre.length bs).foldlM r.instruction code := by
  rw [walk_startsIn r hc hn hfuel, hf]

end Relocator

/-! ## The listing -/

namespace Reader

theorem wrap_le {n : Int} (h : 0 ≤ n) : Number.wrap n ≤ n := by
  rw [Number.wrap, Number.wordCount, Int.bmod]
  split <;> omega

variable {code : Bytes} {i : Nat}

theorem take_ok {α : Type} {width : Nat} {get : Bytes → Nat → Option α} {a : α} (hget : get code i = some a)
    (h : i + width ≤ code.size) : take width get ⟨code, i⟩ = .ok (a, ⟨code, (i + width : Nat)⟩) := by
  have hw : Number.wrap ((i : Int) + width) ≤ i + width := wrap_le (by omega)
  rw [take, if_neg (by dsimp only; omega), if_neg (by dsimp only; omega)]
  simp [hget]

theorem take_short {α : Type} {width : Nat} {get : Bytes → Nat → Option α} (hget : get code i = none) :
    ∃ d, take width get ⟨code, i⟩ = .error d := by
  rw [take]
  split_ifs with h h'
  · exact ⟨_, rfl⟩
  · exact ⟨_, rfl⟩
  · exact ⟨.fault, by simp [hget]⟩

theorem u32_ok {n : UInt32} (h : code.u32At? i = some n) : u32 ⟨code, i⟩ = .ok (n, ⟨code, (i + 4 : Nat)⟩) :=
  take_ok h (by
    by_contra hi
    rw [Bytes.u32At?, dif_neg hi] at h
    cases h)

theorem i32_ok {n : UInt32} (h : code.u32At? i = some n) :
    i32 ⟨code, i⟩ = .ok (n.toInt32, ⟨code, (i + 4 : Nat)⟩) := by
  rw [i32, u32_ok h]
  rfl

end Reader

theorem exists_u32At? {code : Bytes} {i : Nat} (h : i + 4 ≤ code.size) : ∃ n, code.u32At? i = some n :=
  ⟨_, dif_pos h⟩

theorem u32At?_eq_none {code : Bytes} {i : Nat} (h : code.size < i + 4) : code.u32At? i = none :=
  dif_neg (by omega)

theorem exists_u64At? {code : Bytes} {i : Nat} (h : i + 8 ≤ code.size) : ∃ n, code.u64At? i = some n := by
  obtain ⟨lo, hlo⟩ := exists_u32At? (show i + 4 ≤ code.size by omega)
  obtain ⟨hi, hhi⟩ := exists_u32At? (show i + 4 + 4 ≤ code.size by omega)
  exact ⟨_, by rw [Bytes.u64At?, hlo, hhi]; rfl⟩

theorem u64At?_eq_none {code : Bytes} {i : Nat} (h : code.size < i + 8) : code.u64At? i = none := by
  rw [Bytes.u64At?, u32At?_eq_none (show code.size < i + 4 + 4 by omega)]
  cases code.u32At? i <;> rfl

namespace Listing

variable {α β : Type} {idents : Option IdentTable} {code : Bytes}

/-! ### What reading takes -/

namespace Reading

theorem on_bind_of_ok {x : Reading α} {f : α → Reading β} {a : α} {r r' : Reader} (h : x.on r = (.ok a, r')) :
    (x >>= f).on r = (f a).on r' := by
  unfold Reading.on at *
  rw [ExceptT.run_bind, StateT.run_bind, Id.run_bind, h]

theorem on_bind_of_error {x : Reading α} {f : α → Reading β} {d : Defect} {r r' : Reader} (h : x.on r = (.error d, r')) :
    (x >>= f).on r = (.error d, r') := by
  unfold Reading.on at *
  rw [ExceptT.run_bind, StateT.run_bind, Id.run_bind, h]
  rfl

/-- Takes `n` bytes and moves behind them, and fails if there are fewer. -/
structure Takes (x : Reading α) (n : Nat) : Prop where
  ok : ∀ (code : Bytes) (i : Nat), i + n ≤ code.size → ∃ a, x.on ⟨code, i⟩ = (.ok a, ⟨code, (i + n : Nat)⟩)
  short : ∀ (code : Bytes) (i : Nat), i ≤ code.size → code.size < i + n → ∃ d r, x.on ⟨code, i⟩ = (.error d, r)

theorem Takes.eq {x : Reading α} {n k : Nat} (h : Takes x n) (hk : n = k) : Takes x k := hk ▸ h

theorem takes_pure (a : α) : Takes (pure a) 0 := ⟨fun _ _ _ => ⟨a, rfl⟩, fun _ _ hi h => absurd hi (by omega)⟩

theorem takes_get : Takes get 0 := ⟨fun code i _ => ⟨⟨code, i⟩, rfl⟩, fun _ _ hi h => absurd hi (by omega)⟩

theorem Takes.bind {x : Reading α} {f : α → Reading β} {n k : Nat} (hx : Takes x n) (hf : ∀ a, Takes (f a) k) :
    Takes (x >>= f) (n + k) where
  ok code i h := by
    obtain ⟨a, ha⟩ := hx.ok code i (by omega)
    obtain ⟨b, hb⟩ := (hf a).ok code (i + n) (by omega)
    exact ⟨b, by rw [on_bind_of_ok ha, hb, Nat.add_assoc]⟩
  short code i hi h := by
    rcases Nat.lt_or_ge code.size (i + n) with hn | hn
    · obtain ⟨d, r, hd⟩ := hx.short code i hi hn
      exact ⟨d, r, on_bind_of_error hd⟩
    · obtain ⟨a, ha⟩ := hx.ok code i hn
      obtain ⟨d, r, hd⟩ := (hf a).short code (i + n) hn (by omega)
      exact ⟨d, r, by rw [on_bind_of_ok ha, hd]⟩

/-- What is made of what was read. -/
theorem Takes.to {x : Reading α} {f : α → β} {n : Nat} (hx : Takes x n) : Takes (do return f (← x)) n :=
  hx.bind fun _ => takes_pure _

theorem get_run (r : Reader) : StateT.run (ExceptT.run (get : Reading Reader)) r = (pure (.ok r, r) : Id _) := rfl

theorem on_read_of_ok {take : Reader → Except Defect (α × Reader)} {r r' : Reader} {a : α} (h : take r = .ok (a, r')) :
    (read take).on r = (.ok a, r') := by
  simp only [on, read, ExceptT.run_bind, StateT.run_bind, get_run, pure_bind, h]
  rfl

theorem on_read_of_error {take : Reader → Except Defect (α × Reader)} {r : Reader} {d : Defect} (h : take r = .error d) :
    (read take).on r = (.error d, r) := by
  simp only [on, read, ExceptT.run_bind, StateT.run_bind, get_run, pure_bind, h]
  rfl

/-- A word of `width` bytes that is there when they are. -/
theorem takes_read {width : Nat} {get : Bytes → Nat → Option α}
    (hget : ∀ code i, i + width ≤ code.size → ∃ a, get code i = some a)
    (hnone : ∀ code i, code.size < i + width → get code i = none) : Takes (read (Reader.take width get)) width where
  ok code i h := by
    obtain ⟨a, ha⟩ := hget code i h
    exact ⟨a, on_read_of_ok (Reader.take_ok ha h)⟩
  short code i _ h := by
    obtain ⟨d, hd⟩ := Reader.take_short (hnone code i h)
    exact ⟨d, _, on_read_of_error hd⟩

theorem takes_u8 : Takes (read Reader.u8) 1 :=
  takes_read (fun _ _ h => ⟨_, Array.getElem?_eq_getElem h⟩) fun _ _ h => Array.getElem?_eq_none (by omega)

theorem takes_u16 : Takes (read Reader.u16) 2 :=
  takes_read (fun _ _ h => ⟨_, dif_pos h⟩) fun _ _ h => dif_neg (by omega)

theorem takes_u32 : Takes (read Reader.u32) 4 := takes_read (fun _ _ => exists_u32At?) fun _ _ => u32At?_eq_none

theorem takes_u64 : Takes (read Reader.u64) 8 := takes_read (fun _ _ => exists_u64At?) fun _ _ => u64At?_eq_none

theorem takes_i32 : Takes (read Reader.i32) 4 where
  ok code i h := by
    obtain ⟨n, hn⟩ := exists_u32At? h
    exact ⟨_, on_read_of_ok (Reader.i32_ok hn)⟩
  short code i _ h := by
    obtain ⟨d, hd⟩ : ∃ d, Reader.u32 ⟨code, i⟩ = .error d := Reader.take_short (u32At?_eq_none h)
    exact ⟨d, _, on_read_of_error (by rw [Reader.i32, hd]; rfl)⟩

end Reading

open Reading

/-! ### Operands -/

theorem takes_name : Takes (name idents) 4 := takes_u32.to

theorem takes_number : Takes number 4 := takes_u32.to

theorem takes_int : Takes int 4 := takes_i32.to

theorem takes_target : Takes target 4 := takes_i32.bind fun _ => takes_get.to

theorem takes_plain {op : Opcode} (h : op.size = 1 ∨ op.size = 5) : Takes (plain op) (op.size - 1) := by
  rw [plain]
  rcases h with h | h
  · rw [if_neg (by omega), h]
    refine ⟨fun code i _ => ⟨"", ?_⟩, fun _ _ hi h => absurd hi (by omega)⟩
    change (_, Reader.skip ⟨code, i⟩ (((1 : Nat) : Int) - 1)) = _
    simp [Reader.skip]
  · rw [if_pos h, h]
    exact takes_number.to

/-- An instruction is shown from as many bytes as it has by the table. -/
theorem takes_operands (idents : Option IdentTable) (op : Opcode) : Takes (operands idents op) (op.size - 1) := by
  cases op with
  | pushVal | pushFlonum => exact takes_u64.to
  | setLocal | getLocal => exact takes_number.to
  | setDynLocal | getDynLocal | checkLocal => exact (takes_number.bind fun _ => takes_number.to).eq rfl
  | setConst | getConstTop | getScope | getIvar | setIvar | getGvar | setGvar | getCvar | setCvar | checkConst | checkScope
  | checkIvar | checkGvar | checkMethod => exact takes_name.to
  | getConst | defMethod | defSingletonMethod => exact (takes_name.bind fun _ => takes_number.to).eq rfl
  | send =>
    exact (takes_name.bind fun _ => takes_u16.to.bind fun _ => takes_u8.to.bind fun _ => takes_number.bind fun _ =>
      takes_number.to).eq rfl
  | optSend | optSendN =>
    exact (takes_name.bind fun _ => takes_u16.to.bind fun _ => takes_number.bind fun _ => takes_number.to).eq rfl
  | super => exact (takes_u16.to.bind fun _ => takes_number.bind fun _ => takes_u8.to.to).eq rfl
  | defClass => exact (takes_u8.to.bind fun _ => takes_name.bind fun _ => takes_number.to).eq rfl
  | jmp | jmpBack | jmpIfFalse | jmpIfTrue | jmpUnlessEq | jmpUnlessNe | jmpUnlessGt | jmpUnlessGe | jmpUnlessLt
  | jmpUnlessLe => exact takes_target.to
  | jmpUnlessEqImm | jmpUnlessNeImm | jmpUnlessGtImm | jmpUnlessGeImm | jmpUnlessLtImm | jmpUnlessLeImm =>
    exact (takes_int.bind fun _ => takes_target.to).eq rfl
  | addImm | subImm | eqImm | neImm | gtImm | geImm | ltImm | leImm => exact takes_int.to
  | optCase | optCase2 => exact (takes_number.bind fun _ => takes_int.to).eq rfl
  | _ => exact takes_plain (by decide)

theorem five_le_size {op : Opcode} (hj : op.isJump = true) : 5 ≤ op.size := by
  revert hj
  cases op <;> decide

/-- What is shown of a jump ends with its destination, by the last four bytes. -/
theorem operands_jump (idents : Option IdentTable) {pc : Nat} {op : Opcode} {n : UInt32} (hj : op.isJump = true)
    (hs : pc + op.size ≤ code.size) (hn : code.u32At? (pc + op.size - 4) = some n) :
    ∃ front, (operands idents op).on ⟨code, (pc + 1 : Nat)⟩ =
      (.ok (front ++ " (-> " ++ offsetText (pc + op.size + n.toInt32.toInt) ++ ")"), ⟨code, (pc + op.size : Nat)⟩) := by
  have shown {i : Nat} (hi : i + 4 = pc + op.size) : target.on ⟨code, i⟩ =
      (.ok (toString n.toInt32.toInt ++ " (-> " ++ offsetText (pc + op.size + n.toInt32.toInt) ++ ")"),
        ⟨code, (pc + op.size : Nat)⟩) := by
    have hread := Reader.i32_ok (show code.u32At? i = some n by rw [← hn, ← hi, Nat.add_sub_cancel])
    rw [target, on_bind_of_ok (on_read_of_ok hread), hi]
    rfl
  cases op with
  | jmp | jmpBack | jmpIfFalse | jmpIfTrue | jmpUnlessEq | jmpUnlessNe | jmpUnlessGt | jmpUnlessGe | jmpUnlessLt
  | jmpUnlessLe =>
    exact ⟨" " ++ toString n.toInt32.toInt, (on_bind_of_ok (shown rfl)).trans (by simp only [String.append_assoc]; rfl)⟩
  | jmpUnlessEqImm | jmpUnlessNeImm | jmpUnlessGtImm | jmpUnlessGeImm | jmpUnlessLtImm | jmpUnlessLeImm =>
    change pc + 9 ≤ code.size at hs
    obtain ⟨s, hint⟩ := takes_int.ok code (pc + 1) (by omega)
    refine ⟨" " ++ s ++ " " ++ toString n.toInt32.toInt, (on_bind_of_ok hint).trans ((on_bind_of_ok (shown rfl)).trans ?_)⟩
    simp only [String.append_assoc]
    rfl
  | _ => exact absurd hj (by decide)

/-! ### Lines -/

/-- The line of an instruction at `pc`. -/
def lineText (pc : Int) (name shown : String) : String := offsetText pc ++ "  " ++ name ++ shown

theorem nameOfByte_eq (b : UInt8) : Opcode.nameOfByte b =
    ((Opcode.ofByte? b).map Opcode.mnemonic).getD ("UNKNOWN(" ++ toString b.toNat ++ ")") := by
  unfold Opcode.nameOfByte
  cases Opcode.ofByte? b <;> rfl

theorem nameOfByte_of_some {b : UInt8} {op : Opcode} (h : Opcode.ofByte? b = some op) :
    Opcode.nameOfByte b = op.mnemonic := by
  rw [nameOfByte_eq, h, Option.map_some, Option.getD_some]

theorem nameOfByte_of_none {b : UInt8} (h : Opcode.ofByte? b = none) :
    Opcode.nameOfByte b = "UNKNOWN(" ++ (toString b.toNat ++ ")") := by
  rw [nameOfByte_eq, h, Option.map_none, Option.getD_none, String.append_assoc]

theorem u8_of_lt {pc : Nat} (h : pc < code.size) : Reader.u8 ⟨code, pc⟩ = .ok (code[pc], ⟨code, (pc + 1 : Nat)⟩) :=
  Reader.take_ok (Array.getElem?_eq_getElem h) h

theorem exists_of_opcodeAt? {pc : Nat} {op : Opcode} (h : opcodeAt? code pc = some op) :
    ∃ hpc : pc < code.size, Opcode.ofByte? code[pc] = some op := by
  obtain ⟨b, hb, ho⟩ := Option.bind_eq_some_iff.1 h
  obtain ⟨hpc, rfl⟩ := Array.getElem?_eq_some_iff.1 hb
  exact ⟨hpc, ho⟩

theorem instruction_of_some {pc : Nat} {op : Opcode} (h : pc < code.size) (ho : Opcode.ofByte? code[pc] = some op) :
    instruction idents ⟨code, pc⟩ =
      (operands idents op >>= fun s => pure (lineText pc op.mnemonic s)).on ⟨code, (pc + 1 : Nat)⟩ := by
  have get_on : Reading.on get ⟨code, pc⟩ = (.ok ⟨code, pc⟩, ⟨code, pc⟩) := rfl
  rw [instruction, line, on_bind_of_ok get_on, on_bind_of_ok (on_read_of_ok (u8_of_lt h)), ho, nameOfByte_of_some ho]
  rfl

theorem instruction_of_none {pc : Nat} (h : pc < code.size) (ho : Opcode.ofByte? code[pc] = none) :
    instruction idents ⟨code, pc⟩ = (.ok (lineText pc (Opcode.nameOfByte code[pc]) ""), ⟨code, (pc + 1 : Nat)⟩) := by
  have get_on : Reading.on get ⟨code, pc⟩ = (.ok ⟨code, pc⟩, ⟨code, pc⟩) := rfl
  rw [instruction, line, on_bind_of_ok get_on, on_bind_of_ok (on_read_of_ok (u8_of_lt h)), ho, lineText, String.append_empty]
  rfl

/-- An instruction that is there is listed whole, and the reader goes on after it. -/
theorem instruction_ok {pc : Nat} {op : Opcode} {s : String} (h : opcodeAt? code pc = some op)
    (hs : (operands idents op).on ⟨code, (pc + 1 : Nat)⟩ = (.ok s, ⟨code, (pc + op.size : Nat)⟩)) :
    instruction idents ⟨code, pc⟩ = (.ok (lineText pc op.mnemonic s), ⟨code, (pc + op.size : Nat)⟩) := by
  obtain ⟨hpc, ho⟩ := exists_of_opcodeAt? h
  rw [instruction_of_some hpc ho, on_bind_of_ok hs]
  rfl

theorem instruction_operands (idents : Option IdentTable) {pc : Nat} {op : Opcode} (hs : pc + op.size ≤ code.size) :
    ∃ s, (operands idents op).on ⟨code, (pc + 1 : Nat)⟩ = (.ok s, ⟨code, (pc + op.size : Nat)⟩) := by
  have hpos := op.size_pos
  obtain ⟨s, h⟩ := (takes_operands idents op).ok code (pc + 1) (by omega)
  exact ⟨s, by rw [h, show pc + 1 + (op.size - 1) = pc + op.size by omega]⟩

theorem instruction_short (idents : Option IdentTable) {pc : Nat} {op : Opcode} (hpc : pc < code.size) (ho : Opcode.ofByte? code[pc] = some op)
    (hs : code.size < pc + op.size) : ∃ d r, instruction idents ⟨code, pc⟩ = (.error d, r) := by
  obtain ⟨d, r, h⟩ := (takes_operands idents op).short code (pc + 1) hpc (by omega)
  exact ⟨d, r, (instruction_of_some hpc ho).trans (on_bind_of_error h)⟩

/-! ### Bytes that are no opcodes -/

/-- What a line says after the offset. -/
def opcodeText (line : String) : List Char := (line.toList.dropWhile (· ≠ ' ')).drop 2

/-- A line for a byte that is no opcode. -/
def ListsUnknown (line : String) : Prop := "UNKNOWN(".toList <+: opcodeText line

theorem ne_space_of_mem {pc : Nat} {c : Char} (h : c ∈ (offsetText pc).toList) : c ≠ ' ' := by
  rw [offsetText, if_neg (by omega), Decimal.padLeft, String.toList_append, List.mem_append, String.toList_ofList] at h
  rcases h with h | h
  · rw [List.eq_of_mem_replicate h]
    decide
  · rintro rfl
    have hd : (toString (pc : Int)).toList = Nat.toDigits 10 pc := String.toList_ofList
    rw [hd] at h
    exact absurd (Nat.isDigit_of_mem_toDigits (by decide) (by decide) h) (by decide)

theorem opcodeText_line (pc : Nat) (name shown : String) : name.toList <+: opcodeText (lineText pc name shown) := by
  have hd : (lineText pc name shown).toList =
      (offsetText pc).toList ++ ' ' :: ' ' :: (name.toList ++ shown.toList) := by
    simp [lineText]
  rw [opcodeText, hd, List.dropWhile_append_of_pos fun c hc => by simpa using ne_space_of_mem hc]
  exact ⟨shown.toList, rfl⟩

theorem listsUnknown_of_none {pc : Nat} {b : UInt8} (h : Opcode.ofByte? b = none) :
    ListsUnknown (lineText pc (Opcode.nameOfByte b) "") := by
  refine List.IsPrefix.trans ?_ (opcodeText_line pc _ "")
  rw [nameOfByte_of_none h, String.toList_append]
  exact List.prefix_append _ _

/-- No mnemonic is taken for the name of a byte. -/
theorem head?_mnemonic (op : Opcode) : ∃ c, op.mnemonic.toList.head? = some c ∧ c ≠ 'U' := by
  cases op <;> exact ⟨_, rfl, by decide⟩

theorem not_listsUnknown (pc : Nat) (op : Opcode) (shown : String) : ¬ ListsUnknown (lineText pc op.mnemonic shown) := by
  obtain ⟨c, hc, hU⟩ := head?_mnemonic op
  intro h
  refine hU (Option.some.inj ?_)
  have head?_of_prefix {l l' : List Char} {c : Char} (h : l <+: l') (hc : l.head? = some c) : l'.head? = some c := by
    obtain ⟨t, rfl⟩ := h
    cases l with
    | nil => cases hc
    | cons => exact hc
  rw [← head?_of_prefix (opcodeText_line pc op.mnemonic shown) hc,
    head?_of_prefix h (show "UNKNOWN(".toList.head? = some 'U' by decide)]

/-! ### Listings -/

/-- A line and the instruction it shows. -/
def Shows (idents : Option IdentTable) (code : Bytes) (pc : Nat) (l : String) : Prop :=
  ∃ op shown, opcodeAt? code pc = some op ∧ pc + op.size ≤ code.size ∧
    (operands idents op).on ⟨code, (pc + 1 : Nat)⟩ = (.ok shown, ⟨code, (pc + op.size : Nat)⟩) ∧
    l = lineText pc op.mnemonic shown

theorem lines_done (fuel : Nat) : lines idents fuel ⟨code, code.size⟩ = .ok [] := by
  cases fuel with
  | zero => rw [lines]
  | succ fuel => rw [lines, if_neg (by simp [Reader.hasMore])]

theorem lines_step {fuel pc : Nat} {r : Reader} {l : String} (hpc : pc < code.size)
    (hi : instruction idents ⟨code, pc⟩ = (.ok l, r)) :
    lines idents (fuel + 1) ⟨code, pc⟩ = (lines idents fuel r).map (l :: ·) := by
  rw [lines, if_pos (by simpa [Reader.hasMore] using hpc), hi]

theorem lines_of_starts (idents : Option IdentTable) {starts : List Nat} {fuel pc : Nat} (h : Starts code pc starts)
    (hf : starts.length ≤ fuel) :
    ∃ ls, lines idents fuel ⟨code, pc⟩ = .ok ls ∧ List.Forall₂ (Shows idents code) starts ls := by
  induction h generalizing fuel with
  | done => exact ⟨[], lines_done fuel, .nil⟩
  | @step pc op starts ho hs _ ih =>
    obtain ⟨fuel, rfl⟩ : ∃ k, fuel = k + 1 := ⟨fuel - 1, by rw [List.length_cons] at hf; omega⟩
    rw [List.length_cons] at hf
    obtain ⟨ls, hls, hshow⟩ := ih (show starts.length ≤ fuel by omega)
    obtain ⟨ss, hss⟩ := instruction_operands idents hs
    refine ⟨lineText pc op.mnemonic ss :: ls, ?_, .cons ⟨op, ss, ho, hs, hss, rfl⟩ hshow⟩
    rw [lines_step (exists_of_opcodeAt? ho).1 (instruction_ok ho hss), hls]
    rfl

/-- A listing without unknown opcodes has found the start of each instruction. -/
theorem starts_of_lines {fuel pc : Nat} {ls : List String} (hpc : pc ≤ code.size) (hfuel : code.size ≤ pc + fuel)
    (h : lines idents fuel ⟨code, pc⟩ = .ok ls) (hu : ∀ l ∈ ls, ¬ ListsUnknown l) : ∃ starts, Starts code pc starts := by
  induction fuel generalizing pc ls with
  | zero =>
    obtain rfl : pc = code.size := by omega
    exact ⟨[], .done⟩
  | succ fuel ih =>
    rcases hpc.eq_or_lt with rfl | hlt
    · exact ⟨[], .done⟩
    have hat : opcodeAt? code pc = Opcode.ofByte? code[pc] := opcodeAt?_of_getElem? (Array.getElem?_eq_getElem hlt)
    have rest {l : String} {n : Nat} (hi : instruction idents ⟨code, pc⟩ = (.ok l, ⟨code, (pc + n : Nat)⟩)) :
        ∃ ls', lines idents fuel ⟨code, (pc + n : Nat)⟩ = .ok ls' ∧ ls = l :: ls' := by
      rw [lines_step hlt hi] at h
      cases hl : lines idents fuel ⟨code, (pc + n : Nat)⟩ with
      | ok ls' =>
        rw [hl] at h
        exact ⟨ls', rfl, (Except.ok.inj h).symm⟩
      | error d =>
        rw [hl] at h
        cases h
    cases ho : Opcode.ofByte? code[pc] with
    | none =>
      obtain ⟨ls', -, rfl⟩ := rest (n := 1) (instruction_of_none hlt ho)
      exact absurd (listsUnknown_of_none ho) (hu _ List.mem_cons_self)
    | some op =>
      rw [ho] at hat
      have hsize := op.size_pos
      rcases Nat.lt_or_ge code.size (pc + op.size) with hs | hs
      · obtain ⟨d, r, hd⟩ := instruction_short idents hlt ho hs
        rw [lines, if_pos (by simpa [Reader.hasMore] using hlt), hd] at h
        cases h
      · obtain ⟨ss, hss⟩ := instruction_operands idents hs
        obtain ⟨ls', hls, rfl⟩ := rest (instruction_ok hat hss)
        obtain ⟨starts, hstarts⟩ := ih hs (by omega) hls fun l hl => hu l (List.mem_cons_of_mem _ hl)
        exact ⟨pc :: starts, .step hat hs hstarts⟩

end Listing

end Code

end RubyMachine
