import RubyMachine.Decimal.Binary64

/-! The fewest decimal digits that read back as a given float.

The reals that round to `m · 2 ^ q` form an interval around it, ends included exactly when `m` is
even. For one digit, two digits, and so on, the two neighbours of the value on that decimal grid are
tried; the first grid with a neighbour in the interval gives the digits. -/

namespace RubyMachine.Decimal

/-- `0.d₁d₂… · 10 ^ point`, without trailing zeros. -/
structure Digits where
  digits : List Char
  point : Int

/-- A positive number `centre / scale` with the bounds of its rounding interval in the same units. -/
structure Interval where
  centre : Nat
  below : Nat
  above : Nat
  scale : Nat
  closed : Bool

/-- Units are quarters of the last place, so that both half-way points are integers. The gap below a
power of two is half the gap above it. -/
def Binary64.interval (x : Binary64) : Interval :=
  let m := x.mantissa
  let gap := if x.fraction = 0 ∧ 1 < x.exponent then 1 else 2
  let up := (x.power - 2).toNat
  let down := (2 - x.power).toNat
  { centre := (4 * m) <<< up, below := (4 * m - gap) <<< up, above := (4 * m + 2) <<< up,
    scale := 1 <<< down, closed := m % 2 == 0 }

def decimalLength (n : Nat) : Nat := (Nat.toDigits 10 n).length

/-- The largest `e` with `10 ^ e ≤ num / den`, for a positive quotient above `10 ^ -400`. -/
def log10 (num den : Nat) : Int :=
  if den ≤ num then (decimalLength (num / den) : Int) - 1
  else -(((List.range 400).find? fun j => den ≤ num * Nat.pow 10 (j + 1)).getD 400 + 1 : Nat)

namespace Interval

def contains (i : Interval) (a b k : Nat) : Bool :=
  if i.closed then i.below * b ≤ k * a && k * a ≤ i.above * b
  else i.below * b < k * a && k * a < i.above * b

/-- The multiple of `10 ^ e` next to the centre that lies in the interval, if one does; of two, the
nearer, and the even one at equal distance. -/
def neighbour? (i : Interval) (e : Int) : Option Nat :=
  let a := i.scale * Nat.pow 10 e.toNat
  let b := Nat.pow 10 (-e).toNat
  let k := i.centre * b / a
  match i.contains a b k, i.contains a b (k + 1) with
  | true, false => some k
  | false, true => some (k + 1)
  | false, false => none
  | true, true =>
    let low := i.centre * b - k * a
    let high := (k + 1) * a - i.centre * b
    some (if low < high then k else if high < low then k + 1 else k + k % 2)

def search (i : Interval) (top : Int) : Nat → Nat → Nat × Int
  | 0, n => let e := top - n; ((i.neighbour? e).getD 0, e)
  | fuel + 1, n =>
    let e := top - n
    match i.neighbour? e with
    | some k => (k, e)
    | none => i.search top fuel (n + 1)

end Interval

def stripZeros (cs : List Char) : List Char := (cs.reverse.dropWhile (· == '0')).reverse

/-- The digits of a finite float other than zero; its sign is left out. -/
def Binary64.shortest (x : Binary64) : Digits :=
  let i := x.interval
  let (k, e) := i.search (log10 i.centre i.scale) 17 0
  let cs := Nat.toDigits 10 k
  { digits := stripZeros cs, point := cs.length + e }

end RubyMachine.Decimal
