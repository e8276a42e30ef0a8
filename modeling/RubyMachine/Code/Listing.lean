import RubyMachine.Code.Reader
import RubyMachine.Ident

/-! Listings of bytecode: one line per instruction with its offset, mnemonic and operands. -/

namespace RubyMachine.Code.Listing

/-- Four digits at least, the sign counted among them. -/
def offsetText (n : Int) : String :=
  if n < 0 then "-" ++ Decimal.padLeft 3 '0' (toString n.natAbs)
  else Decimal.padLeft 4 '0' (toString n)

/-- How names are shown; without a table, by number. -/
def identText (idents : Option IdentTable) (n : UInt32) : String :=
  match idents with
  | some t => t.name ⟨n⟩
  | none => "#" ++ toString n.toNat

/-- Reads instructions. What was read before a failure stays read. -/
abbrev Reading := ExceptT Defect (StateM Reader)

def Reading.on {α : Type} (x : Reading α) (r : Reader) : Except Defect α × Reader :=
  Id.run (x.run.run r)

def read {α : Type} (take : Reader → Except Defect (α × Reader)) : Reading α := do
  match take (← get) with
  | .ok (a, r) =>
    set r
    return a
  | .error d => throw d

def byte : Reading String := return toString (← read Reader.u8).toNat
def short : Reading String := return toString (← read Reader.u16).toNat
def number : Reading String := return toString (← read Reader.u32).toNat
def int : Reading String := return toString (← read Reader.i32).toInt

def flags : Reading String :=
  return "0x" ++ String.ofList (Nat.toDigits 16 (← read Reader.u8).toNat)

def name (idents : Option IdentTable) : Reading String :=
  return "'" ++ identText idents (← read Reader.u32) ++ "'"

/-- A distance and where it leads from what follows it. -/
def target : Reading String := do
  let d ← read Reader.i32
  return toString d.toInt ++ " (-> " ++ offsetText ((← get).pos + d.toInt) ++ ")"

/-- The operand of an instruction that is not shown in a way of its own. -/
def plain (op : Opcode) : Reading String := do
  if op.size = 5 then return " " ++ (← number)
  else
    modify (·.skip (op.size - 1))
    return ""

/-- The operands of an instruction, each after a blank. -/
def operands (idents : Option IdentTable) (op : Opcode) : Reading String := do
  match op with
  | .pushVal => return " " ++ (Value.mk (← read Reader.u64)).text
  | .pushFlonum => return " " ++ Decimal.general (← read Reader.u64)
  | .setLocal | .getLocal => return " " ++ (← number)
  | .setDynLocal | .getDynLocal | .checkLocal => return " " ++ (← number) ++ " outer:" ++ (← number)
  | .setConst | .getConstTop | .getScope | .getIvar | .setIvar | .getGvar | .setGvar | .getCvar
  | .setCvar | .checkConst | .checkScope | .checkIvar | .checkGvar | .checkMethod =>
    return " " ++ (← name idents)
  | .getConst => return " " ++ (← name idents) ++ " cache:" ++ (← number)
  | .send =>
    return " " ++ (← name idents) ++ " args:" ++ (← short) ++ " flag:" ++ (← flags) ++ " block:" ++
      (← number) ++ " cache:" ++ (← number)
  | .optSend | .optSendN =>
    return " " ++ (← name idents) ++ " args:" ++ (← short) ++ " block:" ++ (← number) ++
      " cache:" ++ (← number)
  | .super => return " args:" ++ (← short) ++ " block:" ++ (← number) ++ " flag:" ++ (← flags)
  | .defMethod | .defSingletonMethod =>
    return " " ++ (← name idents) ++ " method:" ++ (← number)
  | .defClass =>
    return " module:" ++ (← byte) ++ " " ++ (← name idents) ++ " body:" ++ (← number)
  | .jmp | .jmpBack | .jmpIfFalse | .jmpIfTrue
  | .jmpUnlessEq | .jmpUnlessNe | .jmpUnlessGt | .jmpUnlessGe | .jmpUnlessLt | .jmpUnlessLe =>
    return " " ++ (← target)
  | .jmpUnlessEqImm | .jmpUnlessNeImm | .jmpUnlessGtImm | .jmpUnlessGeImm | .jmpUnlessLtImm
  | .jmpUnlessLeImm => return " " ++ (← int) ++ " " ++ (← target)
  | .addImm | .subImm | .eqImm | .neImm | .gtImm | .geImm | .ltImm | .leImm =>
    return " " ++ (← int)
  | .optCase | .optCase2 => return " table:" ++ (← number) ++ " else:" ++ (← int)
  | _ => plain op

/-- The line of the next instruction. -/
def line (idents : Option IdentTable) : Reading String := do
  let pos := (← get).pos
  let b ← read Reader.u8
  let head := offsetText pos ++ "  " ++ Opcode.nameOfByte b
  match Opcode.ofByte? b with
  | some op => return head ++ (← operands idents op)
  | none => return head

/-- The line of the instruction at the reader's position. The reader comes back also when it failed. -/
def instruction (idents : Option IdentTable) (r : Reader) : Except Defect String × Reader :=
  (line idents).on r

/-- At most `fuel` lines; each instruction takes a byte at least. -/
def lines (idents : Option IdentTable) : Nat → Reader → Except Defect (List String)
  | 0, _ => .ok []
  | fuel + 1, r =>
    if r.hasMore then
      match instruction idents r with
      | (.error d, _) => .error d
      | (.ok s, r) => (lines idents fuel r).map (s :: ·)
    else .ok []

def text (idents : Option IdentTable) (code : Bytes) : Except Defect String :=
  ("\n".intercalate ·) <$> lines idents code.size (.new code)

end RubyMachine.Code.Listing
