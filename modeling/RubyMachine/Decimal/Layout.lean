import RubyMachine.Decimal.Shortest

/-! How floats are written: the general layout, which turns to an exponent for large and small
numbers, and the fixed layout with a given number of places. -/

namespace RubyMachine.Decimal

/-- Decisions of the general layout. -/
structure Layout where
  /-- Numbers whose leading digit counts less than `10 ^ smallest` have an exponent. -/
  smallest : Int
  /-- Numbers whose leading digit counts `10 ^ largest` or more have an exponent. -/
  largest : Int
  exponentDigits : Nat

/-- Numbers from `0.0001` to below a million are written without an exponent, and an exponent has at
least two digits. -/
def Layout.general : Layout := ⟨-4, 6, 2⟩

def padLeft (width : Nat) (c : Char) (s : String) : String :=
  String.ofList (List.replicate (width - s.length) c) ++ s

def padRight (width : Nat) (c : Char) (s : String) : String :=
  s ++ String.ofList (List.replicate (width - s.length) c)

def Digits.positional (d : Digits) : String :=
  if d.point ≤ 0 then
    "0." ++ String.ofList (List.replicate (-d.point).toNat '0' ++ d.digits)
  else
    let n := d.point.toNat
    if d.digits.length ≤ n then
      String.ofList (d.digits ++ List.replicate (n - d.digits.length) '0')
    else String.ofList (d.digits.take n) ++ "." ++ String.ofList (d.digits.drop n)

def Digits.scientific (l : Layout) (d : Digits) : String :=
  let e := d.point - 1
  let tail := d.digits.drop 1
  String.ofList (d.digits.take 1) ++ (if tail.isEmpty then "" else "." ++ String.ofList tail) ++
    (if e < 0 then "e-" else "e+") ++ padLeft l.exponentDigits '0' (toString e.natAbs)

def special? (x : Binary64) : Option String :=
  if x.isNaN then some "NaN"
  else if x.isInfinite then some (if x.negative then "-Inf" else "+Inf")
  else none

/-- The text of a float in the general layout. -/
def general (bits : UInt64) : String :=
  let l := Layout.general
  let x := Binary64.ofBits bits
  match special? x with
  | some s => s
  | none =>
    let sign := if x.negative then "-" else ""
    if x.mantissa = 0 then sign ++ "0"
    else
      let d := x.shortest
      let e := d.point - 1
      sign ++ (if e < l.smallest ∨ l.largest ≤ e then d.scientific l else d.positional)

/-- `num / den` rounded to an integer, a half going to the even neighbour. -/
def roundDiv (num den : Nat) : Nat :=
  let q := num / den
  let r := num % den
  if 2 * r < den then q else if den < 2 * r then q + 1 else q + q % 2

/-- The text of a float with exactly `places` digits after the point. -/
def fixed (places : Nat) (bits : UInt64) : String :=
  let x := Binary64.ofBits bits
  match special? x with
  | some s => s
  | none =>
    let unit := Nat.pow 10 places
    let n := roundDiv ((x.mantissa * unit) <<< x.power.toNat) (1 <<< (-x.power).toNat)
    let whole := toString (n / unit)
    let part := if places = 0 then "" else "." ++ padLeft places '0' (toString (n % unit))
    (if x.negative then "-" else "") ++ whole ++ part

end RubyMachine.Decimal
