import RubyMachine.Code.Opcode
import RubyMachine.Ident

/-! The binary operators: instructions that compute inline on numbers and send a method otherwise. -/

namespace RubyMachine

inductive Operator where
  | add | sub | mul | div | rem | pow | eq | ne | teq | gt | ge | lt | le | cmp | shr | shl
  | bitOr | bitAnd | bitXor
  deriving DecidableEq

namespace Operator

def all : List Operator := [
  add, sub, mul, div, rem, pow, eq, ne, teq, gt, ge, lt, le, cmp, shr, shl, bitOr, bitAnd, bitXor]

/-- The method that implements the operator. -/
def method : Operator → Ident
  | add => .add
  | sub => .sub
  | mul => .mul
  | div => .div
  | rem => .rem
  | pow => .pow
  | eq => .eq
  | ne => .ne
  | teq => .teq
  | gt => .gt
  | ge => .ge
  | lt => .lt
  | le => .le
  | cmp => .cmp
  | shr => .shr
  | shl => .shl
  | bitOr => .bitOr
  | bitAnd => .bitAnd
  | bitXor => .bitXor

/-- Operators that integers have and floats do not. -/
def isBitwise : Operator → Bool
  | shl | shr | bitOr | bitAnd | bitXor => true
  | _ => false

/-- The operator of an instruction with both operands on the stack. -/
def ofOpcode? : Code.Opcode → Option Operator
  | .add => some add
  | .sub => some sub
  | .mul => some mul
  | .div => some div
  | .rem => some rem
  | .pow => some pow
  | .eq => some eq
  | .ne => some ne
  | .teq => some teq
  | .gt => some gt
  | .ge => some ge
  | .lt => some lt
  | .le => some le
  | .cmp => some cmp
  | .shr => some shr
  | .shl => some shl
  | .bitOr => some bitOr
  | .bitAnd => some bitAnd
  | .bitXor => some bitXor
  | _ => none

/-- The operator of an instruction whose right operand is part of the code. -/
def ofImmediate? : Code.Opcode → Option Operator
  | .addImm => some add
  | .subImm => some sub
  | .eqImm => some eq
  | .neImm => some ne
  | .gtImm => some gt
  | .geImm => some ge
  | .ltImm => some lt
  | .leImm => some le
  | _ => none

/-- The operator of a comparison that jumps when it does not hold. -/
def ofBranch? : Code.Opcode → Option Operator
  | .jmpUnlessEq => some eq
  | .jmpUnlessNe => some ne
  | .jmpUnlessGt => some gt
  | .jmpUnlessGe => some ge
  | .jmpUnlessLt => some lt
  | .jmpUnlessLe => some le
  | _ => none

/-- The same with its right operand part of the code. -/
def ofImmediateBranch? : Code.Opcode → Option Operator
  | .jmpUnlessEqImm => some eq
  | .jmpUnlessNeImm => some ne
  | .jmpUnlessGtImm => some gt
  | .jmpUnlessGeImm => some ge
  | .jmpUnlessLtImm => some lt
  | .jmpUnlessLeImm => some le
  | _ => none

end Operator

end RubyMachine
