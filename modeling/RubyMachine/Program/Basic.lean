import RubyMachine.Code.Relocate
import RubyMachine.Cbor.Decode

/-! Compiled programs as they are stored: instruction sequences whose names and functions are numbered
within the program. Names are indices into its list of names; functions are indices into its list of
sequences that start at 1, with 0 for none. -/

namespace RubyMachine

namespace Program

structure Keyword where
  name : UInt32 := 0
  slot : UInt32 := 0
  deriving DecidableEq

structure Params where
  req : Int := 0
  opt : Int := 0
  rest : UInt8 := 0
  post : Int := 0
  keywords : Option (List Keyword) := none
  kwRest : Bool := false
  block : Bool := false
  delegate : Bool := false

structure Handler where
  kind : UInt8 := 0
  start : Int := 0
  stop : Int := 0
  dest : Int := 0

structure SourceLine where
  offset : Int := 0
  line : Int := 0

/-- An entry of a literal pool. The kind tells which of the other fields counts. -/
structure Literal where
  kind : UInt8 := 0
  int : Int := 0
  /-- A float as its 64-bit word. -/
  float : UInt64 := 0
  text : String := ""
  ident : UInt32 := 0
  elems : List Literal := []
  deriving Inhabited

namespace Literal

/-! The kinds of literals. -/

def nilKind : UInt8 := 0
def trueKind : UInt8 := 1
def falseKind : UInt8 := 2
def intKind : UInt8 := 3
def floatKind : UInt8 := 4
def symbolKind : UInt8 := 5
def stringKind : UInt8 := 6
def arrayKind : UInt8 := 7

end Literal

/-- A stored instruction sequence. A list that was never given differs from an empty one. -/
structure Sequence where
  name : UInt32 := 0
  kind : UInt8 := 0
  code : Option Bytes := none
  params : Params := {}
  locals : Option (List UInt32) := none
  kwRestSlot : Option UInt32 := none
  blockSlot : Option UInt32 := none
  delegateSlot : Option UInt32 := none
  consts : List Literal := []
  methodSites : Int := 0
  constSites : Int := 0
  handlers : Option (List Handler) := none
  lines : Option (List SourceLine) := none
  path : String := ""
  /-- The number of local slots, where there are more than names. -/
  slots : Int := 0

/-- The layout of stored programs that is read and written. -/
def formatVersion : Int := 1

end Program

structure Program where
  version : Int := 0
  idents : Option (List String) := none
  sequences : Option (List Program.Sequence) := none
  /-- The sequence to start with, counted from 1. -/
  entry : UInt32 := 0
  source : String := ""

namespace Program

/-! ## Errors -/

/-- What is wrong with one sequence of a program. -/
inductive Flaw where
  | ident (n : UInt32)
  | fn (n : UInt32)
  | code (e : Code.WalkError)
  | slot (n : UInt32)
  | integer (n : Int)
  | literalKind (n : UInt8)
  | handler (h : Handler)

def Flaw.message : Flaw → String
  | ident n => "identifier " ++ toString n.toNat ++ " out of range"
  | fn n => "function " ++ toString n.toNat ++ " out of range"
  | code e => e.message
  | slot n => "parameter slot " ++ toString n.toNat ++ " out of range"
  | integer n => "integer literal " ++ toString n ++ " out of range"
  | literalKind n => "unknown literal kind " ++ toString n.toNat
  | handler h => "exception entry " ++ toString h.start ++ ".." ++ toString h.stop ++ " -> " ++
      toString h.dest ++ " outside the code"

inductive Error where
  | format (e : Cbor.Error)
  | version (found : Int)
  | entry (entry : UInt32) (count : Nat)
  /-- A flaw of the sequence at an index that starts at 1. -/
  | sequence (index : Nat) (flaw : Flaw)
  /-- Code that cannot be walked once its function was added. -/
  | link (e : Code.WalkError)
  | notBytecode (fn : FnId)
  | code (name : String) (e : Code.WalkError)
  /-- A literal, inspected, that has no stored form. -/
  | literal (text : String)

def Error.message : Error → String
  | format e => "wire: unmarshal unit: " ++ e.message
  | version n => "wire: unsupported unit version " ++ toString n ++ " (want " ++ toString formatVersion ++ ")"
  | entry n count => "wire: entry " ++ toString n.toNat ++ " out of range (" ++ toString count ++ " sequences)"
  | sequence i flaw => "wire: sequence " ++ toString i ++ ": " ++ flaw.message
  | link e => "wire: " ++ e.message
  | notBytecode fn => "wire: function " ++ toString fn.id.toNat ++ " is not bytecode"
  | code name e => "wire: " ++ name ++ ": " ++ e.message
  | literal text => "wire: literal " ++ text ++ " cannot be encoded"

end Program

end RubyMachine
