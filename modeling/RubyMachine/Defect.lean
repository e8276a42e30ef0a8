import RubyMachine.Number.Word
import RubyMachine.Value

/-! Defects: the ways in which the machine itself goes wrong. A program cannot rescue a defect. -/

namespace RubyMachine

inductive Defect where
  -- the value stack
  | stackOverflow (requested capacity : Int)
  | stackUnderflow
  | stackPop (count length : Int)
  | stackIndex (index length : Int)
  | stackLength (length : Int)
  | stackInsert (index length : Int)
  | stackCopy (source dest count length : Int)
  | stackFill (low high length : Int)
  | stackSlice (low high length : Int)
  -- the heap
  | freeListLive (page cell : Nat)
  | heapExhausted (pages : Nat)
  | outsidePages (ref : Ref)
  | freedCell (ref : Ref)
  | staleRef (ref : Ref) (gen : UInt16)
  | markOutsidePages (ref : Ref)
  | markFree (ref : Ref)
  | markStale (ref : Ref) (gen : UInt16)
  | sweepMarkedFree (page cell : Nat)
  -- functions, frames and code
  | invalidFunction (fn : FnId)
  | notBytecode (fn : FnId)
  | noFrame
  | notEnvironment (v : Value)
  | notScope (v : Value)
  | outerNotScope (v : Value)
  | switchOrder
  | badOpcode (byte : UInt8) (pc : Int)
  | noOuterScope (levels : Nat)
  | malformedDelegate (name : String)
  -- a value taken for what it is not
  | notFloat
  | notFixnum
  | fixnumRange
  | notSymbol
  | notRef
  | notFrame
  -- assembling and decoding
  | notImmediate
  | labelTwice
  | notPlainJump (mnemonic : String)
  | notImmediateJump (mnemonic : String)
  | unresolvedLabel (name : Ident)
  | codeUnderflow
  /-- Raised by the body of a coroutine. -/
  | raised (message : String)
  /-- A recursion that goes on until there is no memory left for it. -/
  | endless
  /-- An access outside the memory it was meant for. -/
  | fault

namespace Defect

/-- Whether the machine found an invariant broken, was used wrongly, or touched foreign memory. -/
inductive Severity where
  | internal | misuse | fault
  deriving DecidableEq

def severity : Defect → Severity
  | notFloat | notFixnum | fixnumRange | notSymbol | notRef | notFrame | notImmediate | labelTwice
  | notPlainJump _ | notImmediateJump _ | unresolvedLabel _ | codeUnderflow | raised _ => .misuse
  | endless | fault => .fault
  | _ => .internal

private def span (low high : Int) : String :=
  "[" ++ toString low ++ "," ++ toString high ++ ")"

private def below (n : Int) : String := "[0, " ++ toString n ++ ")"

private def cellText (page cell : Nat) : String := toString page ++ ":" ++ toString cell

def message : Defect → String
  | stackOverflow n cap =>
    "stack overflow: " ++ toString n ++ " slots requested, capacity " ++ toString cap
  | stackUnderflow => "stack underflow"
  | stackPop n len => "stack underflow: pop " ++ toString n ++ " of " ++ toString len
  | stackIndex i len => "stack index " ++ toString i ++ " out of range " ++ below len
  | stackLength n => "negative stack length " ++ toString n
  | stackInsert i len =>
    "stack insert at " ++ toString i ++ " out of range [0, " ++ toString len ++ "]"
  | stackCopy s d n len =>
    "stack copy " ++ span s (Number.wrap (s + n)) ++ " -> " ++ span d (Number.wrap (d + n)) ++ " out of range " ++ below len
  | stackFill low high len => "stack fill " ++ span low high ++ " out of range " ++ below len
  | stackSlice low high len => "stack slice " ++ span low high ++ " out of range " ++ below len
  | freeListLive p c => "free list entry " ++ cellText p c ++ " is live"
  | heapExhausted n => "heap exhausted: " ++ toString n ++ " pages"
  | outsidePages r => "pointer outside any page: " ++ r.text
  | freedCell r => "reference to freed cell " ++ r.text
  | staleRef r g =>
    "stale reference " ++ r.text ++ " (cell generation " ++ toString g.toNat ++ ")"
  | markOutsidePages r => "mark: pointer outside any page: " ++ r.text
  | markFree r => "mark: cell " ++ r.text ++ " is on the free list"
  | markStale r g =>
    "mark: stale reference " ++ r.text ++ " (cell generation " ++ toString g.toNat ++ ")"
  | sweepMarkedFree p c => "sweep: marked cell " ++ cellText p c ++ " found on the free list"
  | invalidFunction f => "invalid function id " ++ toString f.id.toNat
  | notBytecode f => "function " ++ toString f.id.toNat ++ " is not bytecode"
  | noFrame => "no active frame"
  | notEnvironment v => "not an environment: " ++ v.text
  | notScope v => "not a heap context: " ++ v.text
  | outerNotScope v => "heap context outer must be a heap context: " ++ v.text
  | switchOrder => "fiber switch out of order"
  | badOpcode b pc => "bad opcode " ++ toString b.toNat ++ " at " ++ toString pc
  | noOuterScope n => "no scope " ++ toString n ++ " levels out"
  | malformedDelegate name => "malformed delegate slot in " ++ name
  | notFloat => "Value.Float: not a float"
  | notFixnum => "Value.Fixnum: not a fixnum"
  | fixnumRange => "FromFixnum: value out of range"
  | notSymbol => "Value.Symbol: not a symbol"
  | notRef => "Value.Ref: not a heap reference"
  | notFrame => "Value.FrameOffset: not a frame"
  | notImmediate => "EmitPushVal: not an immediate"
  | labelTwice => "label already resolved"
  | notPlainJump m => "EmitJump: " ++ m ++ " is not a plain jump"
  | notImmediateJump m => "EmitJumpI: " ++ m ++ " is not an immediate branch"
  | unresolvedLabel n => "iseq " ++ toString n.id.toNat ++ ": unresolved label"
  | codeUnderflow => "bytecode underflow"
  | raised m => m
  | endless | fault => ""

end Defect

/-! ## Checked payloads -/

namespace Value

def asFixnum (v : Value) : Except Defect Int :=
  if v.isFixnum then .ok v.toInt else .error .notFixnum

def asFloat (v : Value) : Except Defect UInt64 :=
  if v.isFloat then .ok v.bits else .error .notFloat

def asSymbol (v : Value) : Except Defect Ident :=
  if v.isSymbol then .ok v.toSymbol else .error .notSymbol

def asRef (v : Value) : Except Defect Ref :=
  if v.isRef then .ok v.toRef else .error .notRef

def asFrame (v : Value) : Except Defect Nat :=
  if v.isFrame then .ok v.toFrame else .error .notFrame

def fixnum (n : Int) : Except Defect Value :=
  match ofInt? n with
  | some v => .ok v
  | none => .error .fixnumRange

end Value

end RubyMachine
