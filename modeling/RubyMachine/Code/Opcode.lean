import RubyMachine.Bytes.Basic

/-! The instruction set. A table gives each opcode its byte, its mnemonic and its length. The operands
behind the byte are told apart from it. -/

namespace RubyMachine.Code

/-- How an operand is stored and what it means. -/
inductive Operand where
  /-- An immediate value, eight bytes. -/
  | value
  /-- The bits of a float, eight bytes. -/
  | float
  | count
  | int
  | ident
  /-- A function, four bytes, 0 for none. -/
  | fn
  | short
  | flags
  | byte
  /-- A signed distance from the next instruction, four bytes. -/
  | target
  deriving DecidableEq

def Operand.width : Operand → Nat
  | .value | .float => 8
  | .count | .int | .ident | .fn | .target => 4
  | .short => 2
  | .flags | .byte => 1

inductive Opcode where
  | pushVal | pushFlonum | pushNil | pushSelf | createRange | createArray | createProc
  | createHash | createRegexp | constVal | setLocal | getLocal | setDynLocal | getDynLocal
  | getConst | setConst | getConstTop | getScope | getIvar | setIvar | getGvar | setGvar
  | getCvar | setCvar | getSvar | setSvar | getIndex | setIndex | getIndexImm | setIndexImm
  | checkLocal | checkConst | checkScope | checkIvar | checkGvar | checkMethod | send | optSend
  | optSendN | pop | dup | take | splat | concatString | toS | sinkN | topN | defClass
  | defSingletonClass | defMethod | defSingletonMethod | jmp | jmpBack | jmpIfFalse | jmpIfTrue
  | ret | brk | optCase | methodRet | yield | rescue | throw | optCase2 | super | add | sub | mul
  | div | rem | eq | ne | teq | gt | ge | lt | le | not | shr | shl | bitOr | bitAnd | bitXor
  | bitNot | pow | cmp | neg | addImm | subImm | eqImm | neImm | gtImm | geImm | ltImm | leImm
  | jmpUnlessEq | jmpUnlessNe | jmpUnlessGt | jmpUnlessGe | jmpUnlessLt | jmpUnlessLe
  | jmpUnlessEqImm | jmpUnlessNeImm | jmpUnlessGtImm | jmpUnlessGeImm | jmpUnlessLtImm
  | jmpUnlessLeImm
  deriving DecidableEq

structure Opcode.Info where
  byte : UInt8
  mnemonic : String
  /-- The length of the instruction, opcode byte included. -/
  size : Nat

namespace Opcode

def info : Opcode → Info
  | .pushVal => ⟨1, "PUSH_VAL", 9⟩
  | .pushFlonum => ⟨2, "PUSH_FLONUM", 9⟩
  | .pushNil => ⟨5, "PUSH_NIL", 1⟩
  | .pushSelf => ⟨8, "PUSH_SELF", 1⟩
  | .createRange => ⟨10, "CREATE_RANGE", 1⟩
  | .createArray => ⟨11, "CREATE_ARRAY", 5⟩
  | .createProc => ⟨12, "CREATE_PROC", 5⟩
  | .createHash => ⟨13, "CREATE_HASH", 5⟩
  | .createRegexp => ⟨14, "CREATE_REGEX", 1⟩
  | .constVal => ⟨15, "CONST_VAL", 5⟩
  | .setLocal => ⟨20, "SET_LOCAL", 5⟩
  | .getLocal => ⟨21, "GET_LOCAL", 5⟩
  | .setDynLocal => ⟨22, "SET_DYNLOCAL", 9⟩
  | .getDynLocal => ⟨23, "GET_DYNLOCAL", 9⟩
  | .getConst => ⟨24, "GET_CONST", 9⟩
  | .setConst => ⟨25, "SET_CONST", 5⟩
  | .getConstTop => ⟨26, "GET_CONSTTOP", 5⟩
  | .getScope => ⟨27, "GET_SCOPE", 5⟩
  | .getIvar => ⟨28, "GET_IVAR", 5⟩
  | .setIvar => ⟨29, "SET_IVAR", 5⟩
  | .getGvar => ⟨30, "GET_GVAR", 5⟩
  | .setGvar => ⟨31, "SET_GVAR", 5⟩
  | .getCvar => ⟨32, "GET_CVAR", 5⟩
  | .setCvar => ⟨33, "SET_CVAR", 5⟩
  | .getSvar => ⟨34, "GET_SVAR", 5⟩
  | .setSvar => ⟨35, "SET_SVAR", 5⟩
  | .getIndex => ⟨40, "GET_INDEX", 1⟩
  | .setIndex => ⟨41, "SET_INDEX", 1⟩
  | .getIndexImm => ⟨42, "GET_IDX_I", 5⟩
  | .setIndexImm => ⟨43, "SET_IDX_I", 5⟩
  | .checkLocal => ⟨50, "CHECK_LOCAL", 9⟩
  | .checkConst => ⟨51, "CHECK_CONST", 5⟩
  | .checkScope => ⟨52, "CHECK_SCOPE", 5⟩
  | .checkIvar => ⟨53, "CHECK_IVAR", 5⟩
  | .checkGvar => ⟨54, "CHECK_GVAR", 5⟩
  | .checkMethod => ⟨55, "CHECK_METHOD", 5⟩
  | .send => ⟨60, "SEND", 16⟩
  | .optSend => ⟨66, "O_SEND", 15⟩
  | .optSendN => ⟨68, "O_SEND_N", 15⟩
  | .pop => ⟨80, "POP", 1⟩
  | .dup => ⟨81, "DUP", 5⟩
  | .take => ⟨82, "TAKE", 5⟩
  | .splat => ⟨83, "SPLAT", 1⟩
  | .concatString => ⟨84, "CONCAT_STR", 5⟩
  | .toS => ⟨85, "TO_S", 1⟩
  | .sinkN => ⟨86, "SINKN", 5⟩
  | .topN => ⟨87, "TOPN", 5⟩
  | .defClass => ⟨90, "DEF_CLASS", 10⟩
  | .defSingletonClass => ⟨91, "DEF_SCLASS", 5⟩
  | .defMethod => ⟨92, "DEF_METHOD", 9⟩
  | .defSingletonMethod => ⟨93, "DEF_CMETHOD", 9⟩
  | .jmp => ⟨100, "JMP", 5⟩
  | .jmpBack => ⟨101, "JMP_BACK", 5⟩
  | .jmpIfFalse => ⟨102, "JMP_IF_F", 5⟩
  | .jmpIfTrue => ⟨103, "JMP_IF_T", 5⟩
  | .ret => ⟨104, "RETURN", 1⟩
  | .brk => ⟨105, "BREAK", 1⟩
  | .optCase => ⟨106, "OPT_CASE", 9⟩
  | .methodRet => ⟨107, "MRETURN", 1⟩
  | .yield => ⟨108, "YIELD", 5⟩
  | .rescue => ⟨109, "RESCUE", 5⟩
  | .throw => ⟨110, "THROW", 1⟩
  | .optCase2 => ⟨111, "OPT_CASE2", 9⟩
  | .super => ⟨112, "SUPER", 8⟩
  | .add => ⟨120, "ADD", 1⟩
  | .sub => ⟨121, "SUB", 1⟩
  | .mul => ⟨122, "MUL", 1⟩
  | .div => ⟨123, "DIV", 1⟩
  | .rem => ⟨124, "REM", 1⟩
  | .eq => ⟨125, "EQ", 1⟩
  | .ne => ⟨126, "NE", 1⟩
  | .teq => ⟨127, "TEQ", 1⟩
  | .gt => ⟨128, "GT", 1⟩
  | .ge => ⟨129, "GE", 1⟩
  | .lt => ⟨130, "LT", 1⟩
  | .le => ⟨131, "LE", 1⟩
  | .not => ⟨132, "NOT", 1⟩
  | .shr => ⟨133, "SHR", 1⟩
  | .shl => ⟨134, "SHL", 1⟩
  | .bitOr => ⟨135, "BIT_OR", 1⟩
  | .bitAnd => ⟨136, "BIT_AND", 1⟩
  | .bitXor => ⟨137, "BIT_XOR", 1⟩
  | .bitNot => ⟨138, "BIT_NOT", 1⟩
  | .pow => ⟨139, "POW", 1⟩
  | .cmp => ⟨140, "CMP", 1⟩
  | .neg => ⟨141, "NEG", 1⟩
  | .addImm => ⟨150, "ADDI", 5⟩
  | .subImm => ⟨151, "SUBI", 5⟩
  | .eqImm => ⟨152, "EQI", 5⟩
  | .neImm => ⟨153, "NEI", 5⟩
  | .gtImm => ⟨154, "GTI", 5⟩
  | .geImm => ⟨155, "GEI", 5⟩
  | .ltImm => ⟨156, "LTI", 5⟩
  | .leImm => ⟨157, "LEI", 5⟩
  | .jmpUnlessEq => ⟨170, "JMP_F_EQ", 5⟩
  | .jmpUnlessNe => ⟨171, "JMP_F_NE", 5⟩
  | .jmpUnlessGt => ⟨172, "JMP_F_GT", 5⟩
  | .jmpUnlessGe => ⟨173, "JMP_F_GE", 5⟩
  | .jmpUnlessLt => ⟨174, "JMP_F_LT", 5⟩
  | .jmpUnlessLe => ⟨175, "JMP_F_LE", 5⟩
  | .jmpUnlessEqImm => ⟨180, "JMP_F_EQI", 9⟩
  | .jmpUnlessNeImm => ⟨181, "JMP_F_NEI", 9⟩
  | .jmpUnlessGtImm => ⟨182, "JMP_F_GTI", 9⟩
  | .jmpUnlessGeImm => ⟨183, "JMP_F_GEI", 9⟩
  | .jmpUnlessLtImm => ⟨184, "JMP_F_LTI", 9⟩
  | .jmpUnlessLeImm => ⟨185, "JMP_F_LEI", 9⟩

/-- Every opcode, by ascending byte. -/
def all : List Opcode := [
  .pushVal, .pushFlonum, .pushNil, .pushSelf, .createRange, .createArray, .createProc,
  .createHash, .createRegexp, .constVal, .setLocal, .getLocal, .setDynLocal, .getDynLocal,
  .getConst, .setConst, .getConstTop, .getScope, .getIvar, .setIvar, .getGvar, .setGvar,
  .getCvar, .setCvar, .getSvar, .setSvar, .getIndex, .setIndex, .getIndexImm, .setIndexImm,
  .checkLocal, .checkConst, .checkScope, .checkIvar, .checkGvar, .checkMethod, .send, .optSend,
  .optSendN, .pop, .dup, .take, .splat, .concatString, .toS, .sinkN, .topN, .defClass,
  .defSingletonClass, .defMethod, .defSingletonMethod, .jmp, .jmpBack, .jmpIfFalse, .jmpIfTrue,
  .ret, .brk, .optCase, .methodRet, .yield, .rescue, .throw, .optCase2, .super, .add, .sub, .mul,
  .div, .rem, .eq, .ne, .teq, .gt, .ge, .lt, .le, .not, .shr, .shl, .bitOr, .bitAnd, .bitXor,
  .bitNot, .pow, .cmp, .neg, .addImm, .subImm, .eqImm, .neImm, .gtImm, .geImm, .ltImm, .leImm,
  .jmpUnlessEq, .jmpUnlessNe, .jmpUnlessGt, .jmpUnlessGe, .jmpUnlessLt, .jmpUnlessLe,
  .jmpUnlessEqImm, .jmpUnlessNeImm, .jmpUnlessGtImm, .jmpUnlessGeImm, .jmpUnlessLtImm,
  .jmpUnlessLeImm]

def byte (op : Opcode) : UInt8 := op.info.byte

def mnemonic (op : Opcode) : String := op.info.mnemonic

def size (op : Opcode) : Nat := op.info.size

/-- What follows the opcode byte. -/
def operands : Opcode → List Operand
  | .pushVal => [.value]
  | .pushFlonum => [.float]
  | .createArray | .createHash | .constVal | .setLocal | .getLocal | .getSvar | .setSvar
  | .getIndexImm | .setIndexImm | .dup | .take | .concatString | .sinkN | .topN | .yield
  | .rescue => [.count]
  | .setDynLocal | .getDynLocal | .checkLocal => [.count, .count]
  | .getConst => [.ident, .count]
  | .setConst | .getConstTop | .getScope | .getIvar | .setIvar | .getGvar | .setGvar | .getCvar
  | .setCvar | .checkConst | .checkScope | .checkIvar | .checkGvar | .checkMethod => [.ident]
  | .send => [.ident, .short, .flags, .fn, .count]
  | .optSend | .optSendN => [.ident, .short, .fn, .count]
  | .super => [.short, .fn, .flags]
  | .createProc | .defSingletonClass => [.fn]
  | .defClass => [.byte, .ident, .fn]
  | .defMethod | .defSingletonMethod => [.ident, .fn]
  | .optCase | .optCase2 => [.count, .int]
  | .addImm | .subImm | .eqImm | .neImm | .gtImm | .geImm | .ltImm | .leImm => [.int]
  | .jmp | .jmpBack | .jmpIfFalse | .jmpIfTrue | .jmpUnlessEq | .jmpUnlessNe | .jmpUnlessGt
  | .jmpUnlessGe | .jmpUnlessLt | .jmpUnlessLe => [.target]
  | .jmpUnlessEqImm | .jmpUnlessNeImm | .jmpUnlessGtImm | .jmpUnlessGeImm | .jmpUnlessLtImm
  | .jmpUnlessLeImm => [.int, .target]
  | _ => []

/-- Whether the last operand is a distance. -/
def isJump : Opcode → Bool
  | .jmp | .jmpBack | .jmpIfFalse | .jmpIfTrue
  | .jmpUnlessEq | .jmpUnlessNe | .jmpUnlessGt | .jmpUnlessGe | .jmpUnlessLt | .jmpUnlessLe
  | .jmpUnlessEqImm | .jmpUnlessNeImm | .jmpUnlessGtImm | .jmpUnlessGeImm | .jmpUnlessLtImm
  | .jmpUnlessLeImm => true
  | _ => false

def byByte : Array (Option Opcode) :=
  all.foldl (fun t op => t.setIfInBounds op.byte.toNat (some op)) (Array.replicate 256 none)

def ofByte? (b : UInt8) : Option Opcode := byByte.getD b.toNat none

def ofMnemonic? (s : String) : Option Opcode := all.find? fun op => op.mnemonic == s

/-- The name of the opcode at a byte, or of the byte itself when it is none. -/
def nameOfByte (b : UInt8) : String :=
  match ofByte? b with
  | some op => op.mnemonic
  | none => "UNKNOWN(" ++ toString b.toNat ++ ")"

/-- The size of the instruction that starts with a byte, 0 when there is none. -/
def sizeOfByte (b : UInt8) : Nat := ((ofByte? b).map size).getD 0

end Opcode

end RubyMachine.Code
