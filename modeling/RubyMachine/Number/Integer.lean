import RubyMachine.Failure
import RubyMachine.Number.Word
import RubyMachine.Operator

/-! Operators on integers of 48 bits, computed in words of 64 bits with a sign. Each gives the exact result or fails when
it is out of range. -/

namespace RubyMachine.Number

def inRange (n : Int) : Bool := Value.minFixnum ≤ n && n ≤ Value.maxFixnum

/-- An exact result as a value. -/
def fixnum (n : Int) : Except Failure Value :=
  match Value.ofInt? n with
  | some v => .ok v
  | none => .error (.of (.fixnumRange n))

/-! ## Words -/

/-- The magnitude of a word. -/
def magnitude (n : Int64) : UInt64 := if n < 0 then (-n).toUInt64 else n.toUInt64

/-- A product of two words without signs takes two words, the high one first. -/
def mulWide (x y : UInt64) : UInt64 × UInt64 :=
  let p := x.toNat * y.toNat
  (.ofNat (p / wordCount), .ofNat p)

/-- A product, if a word can hold its magnitude. -/
def multiply? (a b : Int64) : Option Int64 :=
  let (high, low) := mulWide (magnitude a) (magnitude b)
  if high ≠ 0 ∨ maxWord < low.toNat then none
  else some (if decide (a < 0) != decide (b < 0) then -low.toInt64 else low.toInt64)

/-- A quotient rounded down. Words are divided towards zero. -/
def floorDiv (a b : Int64) : Int64 :=
  let q := a / b
  if a % b ≠ 0 ∧ decide (a < 0) != decide (b < 0) then q - 1 else q

/-! ## Operators -/

/-- A product is refused before its range is looked at where a word cannot hold its magnitude. -/
def multiply (a b : Int64) : Except Failure Value :=
  match multiply? a b with
  | some p => fixnum p.toInt
  | none => .error (.of .productRange)

/-- Multiplies `r` by `a`, `n` times. -/
def powerFrom (a r : Int64) : Nat → Except Failure Value
  | 0 => fixnum r.toInt
  | n + 1 =>
    match multiply? r a with
    | some p => if inRange p.toInt then powerFrom a p n else .error (.of .powerRange)
    | none => .error (.of .powerRange)

/-- Shifts to the left, by a negative width to the right. -/
def shiftLeft (a n : Int64) : Except Failure Value :=
  if n < 0 then
    if n ≤ -63 then .ok (.ofInt (if a < 0 then -1 else 0)) else fixnum (a >>> (-n)).toInt
  else if 48 ≤ n ∧ a ≠ 0 then .error (.of (.shiftRange n.toInt))
  else
    -- only 0 is shifted so far that the width would not count in full
    let r := a <<< n
    if r >>> n ≠ a then .error (.of (.shiftRange n.toInt)) else fixnum r.toInt

def compare (a b : Int64) : Int := if a < b then -1 else if b < a then 1 else 0

/-- An operator on two integers; `inverse` takes care of a negative exponent. -/
def integerOp (op : Operator) (a b : Int64) (inverse : Int → Int → Value) : Except Failure Value :=
  match op with
  | .add => fixnum (a + b).toInt
  | .sub => fixnum (a - b).toInt
  | .mul => multiply a b
  | .div => if b = 0 then .error (.of .divisionByZero) else fixnum (floorDiv a b).toInt
  | .rem => if b = 0 then .error (.of .divisionByZero) else fixnum (a - floorDiv a b * b).toInt
  | .pow => if b < 0 then .ok (inverse a.toInt b.toInt) else powerFrom a 1 b.toInt.toNat
  | .shl => shiftLeft a b
  | .shr => shiftLeft a (-b)
  | .bitOr => fixnum (a ||| b).toInt
  | .bitAnd => fixnum (a &&& b).toInt
  | .bitXor => fixnum (a ^^^ b).toInt
  | .eq | .teq => .ok (.ofBool (a == b))
  | .ne => .ok (.ofBool (a != b))
  | .gt => .ok (.ofBool (a > b))
  | .ge => .ok (.ofBool (a ≥ b))
  | .lt => .ok (.ofBool (a < b))
  | .le => .ok (.ofBool (a ≤ b))
  | .cmp => .ok (.ofInt (compare a b))

def negate (n : Int64) : Except Failure Value := fixnum (-n).toInt

def complement (n : Int64) : Value := .ofInt (~~~n).toInt

end RubyMachine.Number
