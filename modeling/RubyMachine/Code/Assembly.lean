import RubyMachine.Code.Builder
import RubyMachine.Ident

/-! Symbolic code: instructions by mnemonic, with names for labels, locals, identifiers and functions.

Besides the instructions of the set there are five directives: `L` places a label, `LINE` notes a
source line, `RAW` appends bytes, and `JUMP` and `JUMPI` assemble any opcode as a jump. -/

namespace RubyMachine.Code

/-- An operand as it is written. -/
inductive Arg where
  | none
  | num (n : Int)
  | name (s : String)
  | symbol (name : String)
  | value (v : Value)
  /-- An entry of the literal pool by its number. -/
  | index (n : UInt32)
  /-- A function by its own number. -/
  | fn (f : FnId)

namespace Arg

/-- The operand as a number, which may be written as text. -/
def toInt : Arg → Int
  | num n => n
  | name s => s.toInt?.getD 0
  | _ => 0

def toU32 (a : Arg) : UInt32 := (UInt64.ofInt a.toInt).toUInt32
def toU16 (a : Arg) : UInt16 := (UInt64.ofInt a.toInt).toUInt16
def toU8 (a : Arg) : UInt8 := (UInt64.ofInt a.toInt).toUInt8

/-- A function, by its own number or by its distance from `base`. -/
def toFn (base : Nat) : Arg → FnId
  | none => ⟨0⟩
  | fn f => f
  | a => ⟨UInt32.ofNat base + a.toU32⟩

def toName : Arg → String
  | name s => s
  | _ => ""

def isTrue : Arg → Bool
  | value v => v == .true
  | _ => false

end Arg

/-- What is said of a sequence besides its instructions. -/
structure Header where
  name : String := ""
  kind : SequenceKind := .other
  locals : List String := []
  params : Params := {}
  keywords : List String := []
  kwRest : Option String := Option.none
  block : Option String := Option.none
  delegate : Option String := Option.none
  path : Option String := Option.none

structure Assembly where
  builder : Builder
  idents : IdentTable
  /-- Functions are numbered from here on. -/
  fnBase : Nat
  /-- Labels by name. -/
  labels : List (String × Nat) := []
  /-- The offsets of labels placed so far. -/
  places : List (String × Nat) := []

namespace Assembly

def intern (a : Assembly) (name : String) : Ident × Assembly :=
  let (i, idents) := a.idents.intern name
  (i, { a with idents })

def addLocal (a : Assembly) (name : String) : Nat × Assembly :=
  let (i, a) := a.intern name
  let (slot, builder) := a.builder.addLocal i
  (slot, { a with builder })

def addLocals (a : Assembly) (names : List String) : Assembly :=
  names.foldl (fun a n => (a.addLocal n).2) a

/-- Declares keyword parameters, each with a local of its name. -/
def addKeywords (a : Assembly) : List String → List Keyword × Assembly
  | [] => ([], a)
  | n :: ns =>
    let (i, a) := a.intern n
    let (slot, a) := a.addLocal n
    let (ks, a) := a.addKeywords ns
    (⟨i, UInt32.ofNat slot⟩ :: ks, a)

/-- Declares a local for a parameter of its own kind. -/
def addSpecial (a : Assembly) (mark : Builder → Nat → Builder) : Option String → Assembly
  | Option.none => a
  | some n =>
    let (slot, a) := a.addLocal n
    { a with builder := mark a.builder slot }

/-- Starts a sequence: its name, its locals and its parameters. -/
def start (idents : IdentTable) (fnBase : Nat) (h : Header) : Assembly :=
  let (name, idents) := idents.intern h.name
  let builder := Builder.new name h.kind
  let a : Assembly := { builder := (h.path.map builder.setPath).getD builder, idents, fnBase }
  let (keywords, a) := (a.addLocals h.locals).addKeywords h.keywords
  let a := { a with builder := a.builder.setParams { h.params with keywords } }
  let a := a.addSpecial Builder.markKwRest h.kwRest
  let a := a.addSpecial Builder.markBlock h.block
  a.addSpecial Builder.markDelegate h.delegate

/-- The number of a label, which is made when it is first mentioned. -/
def label (a : Assembly) (name : String) : Nat × Assembly :=
  match a.labels.lookup name with
  | some l => (l, a)
  | Option.none =>
    let (l, builder) := a.builder.newLabel
    (l, { a with builder, labels := (name, l) :: a.labels })

def place (a : Assembly) (name : String) : Except Defect Assembly := do
  let (l, a) := a.label name
  let builder ← a.builder.mark l
  return { a with builder, places := (name, builder.length) :: a.places }

def jump (a : Assembly) (byte : UInt8) (dest : String) : Except Defect Assembly := do
  let (l, a) := a.label dest
  return { a with builder := ← a.builder.emitJump byte l }

def jumpImm (a : Assembly) (byte : UInt8) (imm : UInt32) (dest : String) : Except Defect Assembly := do
  let (l, a) := a.label dest
  return { a with builder := ← a.builder.emitJumpImm byte imm l }

/-- A local slot, by number or by name. -/
def slot (a : Assembly) : Arg → UInt32 × Assembly
  | .name n =>
    let (i, a) := a.addLocal n
    (UInt32.ofNat i, a)
  | arg => (arg.toU32, a)

def fnOf (a : Assembly) (arg : Arg) : FnId := arg.toFn a.fnBase

/-- The opcode byte of a mnemonic, 0 for none. -/
def byteOf (arg : Arg) : UInt8 := ((Opcode.ofMnemonic? arg.toName).map Opcode.byte).getD 0

def pushValue (a : Assembly) (arg : Arg) : Except Defect Assembly := do
  match arg with
  | .symbol n =>
    let (i, a) := a.intern n
    return { a with builder := ← a.builder.emitPush (.ofSymbol i) }
  | .num n => return { a with builder := ← a.builder.emitPushInt n }
  | .value v => return { a with builder := ← a.builder.emitPush v }
  | _ => return { a with builder := ← a.builder.emitPush .nil }

/-- A literal, put into the pool unless it is named by its number there. -/
def literal (arg : Arg) (b : Builder) : Except Defect Builder :=
  match arg with
  | .index i => .ok (b.emitU32 .constVal i)
  | .value v => .ok (b.emitConst v)
  | .num n => do return b.emitConst (← Value.fixnum n)
  | _ => .ok (b.emitConst .nil)

/-- An instruction whose operands are of the kinds that its opcode declares. -/
def plain (a : Assembly) (op : Opcode) (args : List Arg) : Except Defect Assembly :=
  let x (i : Nat) := args.getD i .none
  match op.operands with
  | [.ident] =>
    let (i, a) := a.intern (x 0).toName
    .ok { a with builder := a.builder.emitU32 op i.id }
  | [.fn] => .ok { a with builder := a.builder.emitU32 op (a.fnOf (x 0)).id }
  | [.target] => a.jump op.byte (x 0).toName
  | [.int, .target] => a.jumpImm op.byte (x 0).toU32 (x 1).toName
  | _ =>
    .ok { a with builder :=
      if op.size = 5 then a.builder.emitU32 op (x 0).toU32 else a.builder.emit op }

/-- Assembles one instruction of the set. -/
def instruction (a : Assembly) (op : Opcode) (args : List Arg) : Except Defect Assembly := do
  let x (i : Nat) := args.getD i .none
  let named (f : Ident → Builder → Builder) : Except Defect Assembly :=
    let (i, a) := a.intern (x 0).toName
    .ok { a with builder := f i a.builder }
  match op with
  | .pushVal => a.pushValue (x 0)
  | .pushFlonum =>
    let bits := UInt64.ofNat ((Bytes.natOfHex? (x 0).toName).getD 0)
    return { a with builder := a.builder.emitPushFloat bits }
  | .constVal => return { a with builder := ← literal (x 0) a.builder }
  | .getLocal | .setLocal =>
    let (i, a) := a.slot (x 0)
    return { a with builder := a.builder.emitU32 op i }
  | .getDynLocal | .setDynLocal | .checkLocal =>
    let (i, a) := a.slot (x 0)
    return { a with builder := a.builder.emitDynLocal op i (x 1).toU32 }
  | .getConst => named fun i b => b.emitGetConst i
  | .send => named fun i b => b.emitSend i (x 1).toU16 (x 2).toU8 (a.fnOf (x 3))
  | .optSend | .optSendN =>
    named fun i b => b.emitOptSend i (x 1).toU16 (a.fnOf (x 2)) (op == .optSendN)
  | .super =>
    return { a with builder := a.builder.emitSuper (x 0).toU16 (a.fnOf (x 1)) (x 2).toU8 }
  | .defMethod | .defSingletonMethod =>
    named fun i b => b.emitDefMethod i (a.fnOf (x 1)) (op == .defSingletonMethod)
  | .defClass =>
    let (i, a) := a.intern (x 1).toName
    return { a with builder := a.builder.emitDefClass (x 0).isTrue i (a.fnOf (x 2)) }
  | _ => a.plain op args

/-- Assembles an instruction or a directive; an unknown mnemonic is the byte 0. -/
def emit (a : Assembly) (mnemonic : String) (args : List Arg) : Except Defect Assembly :=
  let x (i : Nat) := args.getD i .none
  match mnemonic with
  | "L" => a.place (x 0).toName
  | "LINE" => .ok { a with builder := a.builder.addLine (x 0).toInt }
  | "RAW" =>
    .ok { a with builder := a.builder.append ((Bytes.ofHex? (x 0).toName).getD #[]).toList }
  | "JUMP" => a.jump (byteOf (x 0)) (x 1).toName
  | "JUMPI" => a.jumpImm (byteOf (x 0)) (x 1).toU32 (x 2).toName
  | _ =>
    match Opcode.ofMnemonic? mnemonic with
    | some op => a.instruction op args
    | Option.none => .ok { a with builder := a.builder.emitByte 0 }

/-- An offset, by number or as the place of a label, 0 if it was never placed. -/
def offset (a : Assembly) : Arg → Int
  | .name n => (a.places.lookup n).getD 0
  | arg => arg.toInt

def addHandler (a : Assembly) (kind : HandlerKind) (start stop dest : Arg) : Assembly :=
  { a with builder := a.builder.addHandler ⟨kind, a.offset start, a.offset stop, a.offset dest⟩ }

end Assembly

end RubyMachine.Code
