import RubyMachine.Number.Exponential
import RubyMachine.Number.Integer

/-! Operators on floats. -/

namespace RubyMachine.Number

def nan : Float := Float.ofBits 0x7FF8000000000000
def infinity : Float := Float.ofBits 0x7FF0000000000000

/-- `m · 2 ^ q` for a number that a float can hold. -/
def ofParts (m : Nat) (q : Int) : Float :=
  let extra := m.log2 - 52
  Float.scaleB (Float.ofNat (m >>> extra)) (q + extra)

/-- The remainder of a division rounded toward zero. It is exact and has the sign of `x`. -/
def remainder (x y : Float) : Float :=
  let a := Decimal.Binary64.ofBits x.toBits
  let b := Decimal.Binary64.ofBits y.toBits
  if a.isNaN || a.isInfinite || b.isNaN || y == 0 then nan
  else if b.isInfinite || x == 0 then x
  else
    let q := min a.power b.power
    let r := a.mantissa <<< (a.power - q).toNat % b.mantissa <<< (b.power - q).toNat
    let m := ofParts r q
    if a.negative then -m else m

/-- The remainder with the sign of the divisor. -/
def modulo (x y : Float) : Float :=
  let m := remainder x y
  if m != 0 && decide (m < 0) != decide (y < 0) then m + y else m

def isOddInteger (y : Float) : Bool :=
  y.abs < 9007199254740992 && y.floor == y && y.abs.toUInt64 % 2 == 1

/-- `a · 2 ^ ae` times `x · 2 ^ xe` to the power of `n`, by repeated squaring over at most `fuel`
binary digits of `n`. Mantissas stay between a half and one. -/
def raise (a : Float) (ae : Int) (x : Float) (xe : Int) : Nat → Nat → Float × Int
  | 0, _ => (a, ae)
  | fuel + 1, n =>
    if n = 0 then (a, ae)
    else if xe < -4096 ∨ 4096 < xe then (a, ae + xe)
    else
      let (a, ae) := if n % 2 = 1 then (a * x, ae + xe) else (a, ae)
      let sq := x * x
      if sq < 0.5 then raise a ae (sq + sq) (2 * xe - 1) fuel (n / 2)
      else raise a ae sq (2 * xe) fuel (n / 2)

/-- A finite base other than zero to a finite power. -/
def finitePower (x y : Float) : Float :=
  let whole := y.abs.floor
  let part := y.abs - whole
  if part != 0 && x < 0 then nan
  else if whole ≥ 9223372036854775808 then
    if x == -1 then 1 else if decide (x.abs < 1) == decide (y > 0) then 0 else infinity
  else
    let (whole, part) := if part > 0.5 then (whole + 1, part - 1) else (whole, part)
    let a := if part == 0 then 1 else exponential (part * logarithm x)
    let (x1, xe) := Float.frExp x
    let (a, ae) := raise a 0 x1 xe 64 whole.toUInt64.toNat
    if y < 0 then Float.scaleB (1 / a) (-ae) else Float.scaleB a ae

/-- Zero to a power other than zero. -/
def powerOfZero (x y : Float) : Float :=
  if y < 0 then if isOddInteger y then 1 / x else infinity
  else if isOddInteger y then x else 0

def powerOfInfinity (y : Float) : Float := if y < 0 then 0 else infinity

def realPower (x y : Float) : Float :=
  let base := Decimal.Binary64.ofBits x.toBits
  let exponent := Decimal.Binary64.ofBits y.toBits
  if y == 0 || x == 1 then 1
  else if y == 1 then x
  else if base.isNaN || exponent.isNaN then nan
  else if x == 0 then powerOfZero x y
  else if exponent.isInfinite then
    if x == -1 then 1
    else if decide (x.abs < 1) == decide (y > 0) then 0 else infinity
  else if base.isInfinite then
    if base.negative then powerOfZero (1 / x) (-y) else powerOfInfinity y
  else if y == 0.5 then x.sqrt
  else if y == -0.5 then 1 / x.sqrt
  else finitePower x y

/-- The power of an integer with a negative exponent. -/
def inversePower (a b : Int) : Value := .ofFloat (realPower (Float.ofInt a) (Float.ofInt b))

/-- An operator on two floats; bitwise operators have no meaning here and give nil. -/
def realOp (op : Operator) (a b : Float) : Value :=
  match op with
  | .add => .ofFloat (a + b)
  | .sub => .ofFloat (a - b)
  | .mul => .ofFloat (a * b)
  | .div => .ofFloat (a / b)
  | .rem => .ofFloat (modulo a b)
  | .pow => .ofFloat (realPower a b)
  | .eq | .teq => .ofBool (a == b)
  | .ne => .ofBool (a != b)
  | .gt => .ofBool (a > b)
  | .ge => .ofBool (a ≥ b)
  | .lt => .ofBool (a < b)
  | .le => .ofBool (a ≤ b)
  | .cmp =>
    if a < b then .ofInt (-1) else if a > b then .ofInt 1 else if a == b then .ofInt 0 else .nil
  | .shl | .shr | .bitOr | .bitAnd | .bitXor => .nil

/-- A number as a float. -/
def toReal (v : Value) : Float := if v.isFixnum then Float.ofInt v.toInt else v.toFloat

/-- The integer part of a finite float. -/
def truncate (bits : UInt64) : Int :=
  let x := Decimal.Binary64.ofBits bits
  let n : Nat := x.mantissa <<< x.power.toNat >>> (-x.power).toNat
  if x.negative then -n else n

end RubyMachine.Number
