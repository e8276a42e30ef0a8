import RubyMachine.Code.Opcode
import RubyMachine.Value

/-! Failures: errors that belong to the running program. They pass through calls until a rescue entry
or the host takes them; the signals of non-local exits travel the same way. -/

namespace RubyMachine

inductive ErrorKind where
  | name | noMethod | argument | index | type | regexp | fiber | localJump | stopIteration | runtime
  | load | range | zeroDivision | domain | methodReturn | blockReturn | exception | internal
  /-- A number without a kind. -/
  | unknown (code : UInt8)
  deriving DecidableEq

namespace ErrorKind

def known : List ErrorKind := [
  name, noMethod, argument, index, type, regexp, fiber, localJump, stopIteration, runtime, load,
  range, zeroDivision, domain, methodReturn, blockReturn, exception, internal]

def ofCode (code : UInt8) : ErrorKind := known.getD code.toNat (unknown code)

def text : ErrorKind → String
  | name => "NameError"
  | noMethod => "NoMethodError"
  | argument => "ArgumentError"
  | index => "IndexError"
  | type => "TypeError"
  | regexp => "RegexpError"
  | fiber => "FiberError"
  | localJump => "LocalJumpError"
  | stopIteration => "StopIteration"
  | runtime => "RuntimeError"
  | load => "LoadError"
  | range => "RangeError"
  | zeroDivision => "ZeroDivisionError"
  | domain => "DomainError"
  | methodReturn => "MethodReturn"
  | blockReturn => "BlockReturn"
  | exception => "Exception"
  | internal => "InternalError"
  | unknown code => "ErrorKind(" ++ toString code.toNat ++ ")"

/-- The signals of non-local exits. -/
def isControl : ErrorKind → Bool
  | methodReturn | blockReturn => true
  | _ => false

end ErrorKind

/-- Why a program failed. Texts inside a cause are names and inspected values. -/
inductive Cause where
  -- arguments
  | argumentCount (given expected : Int)
  | argumentRange (given low high : Int)
  | argumentMin (given low : Int)
  | unknownKeyword (key : String)
  | noReceiver
  | procWithoutBlock
  | bindingOfHostProc
  | nothingToForward (name : String)
  | comparison (receiverClass other : String)
  -- names
  | undefinedMethod (name receiver : String)
  | uninitializedConstant (name : String)
  | undefinedLocal (name binding : String)
  -- types
  | notSymbol (value : String)
  | notProc
  | expectedProc (actual : String)
  | expectedModule (actual : String)
  | intoHash
  | valueIntoHash (value : String)
  | intoArray
  | intoInteger
  | intoString (actual : String)
  | superclass
  | reopenedKind (name : String) (isModule : Bool)
  | singletonMethod (receiver : String)
  | coercion (operand receiverClass : String)
  | exceptionExpected
  -- numbers
  | fixnumRange (n : Int)
  | productRange
  | powerRange
  | shiftRange (width : Int)
  | floatRange (value : String)
  | notFinite (value : String)
  | divisionByZero
  | indexTooSmall (index : Int)
  -- control
  | deadFiber
  | currentFiber
  | yieldFromRoot
  | exhausted
  | noBlock
  | strayReturn
  | strayBreak
  | noFrameToBind
  | ivarsOf (receiver : String)
  | unhandled
  | unimplemented (mnemonic : String)
  | methodReturn
  | blockReturn
  /-- A failure worded by the program or its host. -/
  | worded (kind : ErrorKind) (message : String)

namespace Cause

/-- A range with equal ends is reported as an exact count. -/
def argumentsBetween (given low high : Int) : Cause :=
  if low = high then argumentCount given low else argumentRange given low high

def kind : Cause → ErrorKind
  | argumentCount .. | argumentRange .. | argumentMin .. | unknownKeyword _ | noReceiver
  | procWithoutBlock | bindingOfHostProc | nothingToForward _ | comparison .. => .argument
  | undefinedMethod .. => .noMethod
  | uninitializedConstant _ | undefinedLocal .. => .name
  | notSymbol _ | notProc | expectedProc _ | expectedModule _ | intoHash | valueIntoHash _
  | intoArray | intoInteger | intoString _ | superclass | reopenedKind .. | singletonMethod _
  | coercion .. | exceptionExpected => .type
  | fixnumRange _ | productRange | powerRange | shiftRange _ | floatRange _ => .range
  | notFinite _ => .domain
  | divisionByZero => .zeroDivision
  | indexTooSmall _ => .index
  | deadFiber | currentFiber | yieldFromRoot => .fiber
  | exhausted => .stopIteration
  | noBlock | strayReturn | strayBreak => .localJump
  | noFrameToBind | ivarsOf _ | unhandled => .runtime
  | unimplemented _ => .internal
  | methodReturn => .methodReturn
  | blockReturn => .blockReturn
  | worded k _ => k

private def countText (given : Int) (expected : String) : String :=
  "wrong number of arguments (given " ++ toString given ++ ", expected " ++ expected ++ ")"

def message : Cause → String
  | argumentCount g e => countText g (toString e)
  | argumentRange g lo hi => countText g (toString lo ++ ".." ++ toString hi)
  | argumentMin g lo => countText g (toString lo ++ "+")
  | unknownKeyword k => "unknown keyword: " ++ k
  | noReceiver => "no receiver given"
  | procWithoutBlock => "tried to create Proc object without a block"
  | bindingOfHostProc => "Can't create Binding from C level Proc"
  | nothingToForward n => "unexpected ... in " ++ n
  | comparison c o => "comparison of " ++ c ++ " with " ++ o ++ " failed"
  | undefinedMethod n r => "undefined method `" ++ n ++ "' for " ++ r
  | uninitializedConstant n => "uninitialized constant " ++ n
  | undefinedLocal n b => "local variable '" ++ n ++ "' is not defined for " ++ b
  | notSymbol v => v ++ " is not a symbol"
  | notProc => "not a Proc"
  | expectedProc c => "wrong argument type " ++ c ++ " (expected Proc)"
  | expectedModule c => "wrong argument type " ++ c ++ " (expected Module)"
  | intoHash => "no implicit conversion into Hash"
  | valueIntoHash v => "no implicit conversion of " ++ v ++ " into Hash"
  | intoArray => "no implicit conversion into Array"
  | intoInteger => "no implicit conversion into Integer"
  | intoString c => "no implicit conversion of " ++ c ++ " into String"
  | superclass => "superclass must be a Class"
  | reopenedKind n isModule => n ++ " is not a " ++ (if isModule then "module" else "class")
  | singletonMethod r => "can't define singleton method on " ++ r
  | coercion o c => o ++ " can't be coerced into " ++ c
  | exceptionExpected => "exception class/object expected"
  | fixnumRange n => "integer " ++ toString n ++ " out of fixnum range"
  | productRange => "integer multiplication overflow"
  | powerRange => "integer exponentiation overflow"
  | shiftRange n => "shift width " ++ toString n ++ " too large"
  | floatRange v => "float " ++ v ++ " out of range of integer"
  | notFinite v => v
  | divisionByZero => "divided by 0"
  | indexTooSmall i => "index " ++ toString i ++ " too small for array"
  | deadFiber => "dead fiber called"
  | currentFiber => "attempt to resume the current fiber"
  | yieldFromRoot => "can't yield from root fiber"
  | exhausted => "iteration reached an end"
  | noBlock => "no block given (yield)"
  | strayReturn => "unexpected return"
  | strayBreak => "break from proc-closure"
  | noFrameToBind => "no Ruby frame to bind"
  | ivarsOf r => "can't modify instance variables of " ++ r
  | unhandled => "unhandled exception"
  | unimplemented m => "unimplemented instruction " ++ m
  | methodReturn | blockReturn => ""
  | worded _ m => m

end Cause

/-- A failure under way: its cause, the value it carries and, for a non-local exit, the environment it
unwinds to. -/
structure Failure where
  cause : Cause
  value : Value := Value.nil
  target : Value := Value.nil

namespace Failure

def of (c : Cause) : Failure := { cause := c }

def kind (f : Failure) : ErrorKind := f.cause.kind

def message (f : Failure) : String := f.cause.message

def text (f : Failure) : String :=
  if f.message = "" then f.kind.text else f.kind.text ++ ": " ++ f.message

/-- A failure matches another of its kind that has the same message or none. -/
def isLike (f pattern : Failure) : Bool :=
  pattern.kind == f.kind && (pattern.message == "" || pattern.message == f.message)

/-- Unwinds to the method whose environment is `target`. -/
def methodReturn (v target : Value) : Failure := ⟨.methodReturn, v, target⟩

/-- Ends the send that passed the block, in the frame `target`. -/
def blockReturn (v target : Value) : Failure := ⟨.blockReturn, v, target⟩

/-- A non-local exit that found no target. -/
def escape (f : Failure) : Failure :=
  match f.kind with
  | .methodReturn => of .strayReturn
  | .blockReturn => of .strayBreak
  | _ => f

end Failure

end RubyMachine
