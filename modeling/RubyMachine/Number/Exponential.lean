import RubyMachine.Decimal.Binary64

/-! The exponential function and the natural logarithm. Each is a fixed sequence of operations, so that
its result is settled to the last bit. -/

namespace RubyMachine.Number

/-! ## One rounding for a product and a sum -/

/-- The float nearest to `m · 2 ^ q`; of two that are equally near, the even one. -/
def nearest (m : Nat) (q : Int) : Float :=
  let unit := max (q + m.log2 - 52) (-1074)
  let shift := (unit - q).toNat
  let head := m >>> shift
  let twice := 2 * (m % 1 <<< shift)
  let up := 1 <<< shift < twice || 1 <<< shift == twice && head % 2 == 1
  Float.scaleB (Float.ofNat (if up then head + 1 else head)) (q + shift)

/-- The mantissa with its sign. -/
def signed (x : Decimal.Binary64) : Int := if x.negative then -x.mantissa else x.mantissa

/-- `a · b + c` for finite numbers, rounded once. -/
def mulAdd (a b c : Float) : Float :=
  let a := Decimal.Binary64.ofBits a.toBits
  let b := Decimal.Binary64.ofBits b.toBits
  let c := Decimal.Binary64.ofBits c.toBits
  let q := min (a.power + b.power) c.power
  let sum := signed a * signed b * (1 <<< (a.power + b.power - q).toNat : Nat) +
    signed c * (1 <<< (c.power - q).toNat : Nat)
  let r := nearest sum.natAbs q
  if sum < 0 then -r else r

/-! ## Exponential -/

/-- The nearest integer, an even one where two are equally near. Next to the number that is added, floats
are integers. -/
def nearestInteger (x : Float) : Float := x + 6755399441055744 - 6755399441055744

/-- The natural logarithm of 2, in two parts. The first has few enough digits for exact products. -/
def ln2Upper : Float := 0.69314718055966295651160180568695068359375
def ln2Lower : Float := 0.28235290563031577122588448175013436025525412068e-12

/-- 1/8! and on to 1/1!: what the series multiplies its argument with, from the last term to the
first. -/
def exponentialTerms : List Float := [
  2.4801587301587301587e-5, 1.9841269841269841270e-4, 1.3888888888888888889e-3, 8.3333333333333333333e-3,
  4.1666666666666666667e-2, 1.6666666666666666667e-1, 0.5, 1.0]

/-- `exp x` for `x` of moderate size. With `x = n · ln 2 + r`, a series gives `exp (r / 16) - 1`, which is
squared four times in the form `t (t + 2)`, and the result is scaled by `2 ^ n`. -/
def exponential (x : Float) : Float :=
  let n := nearestInteger (x * 1.4426950408889634073599246810018920)
  let r := mulAdd (-n) ln2Lower (mulAdd (-n) ln2Upper x) * 0.0625
  let t := r * exponentialTerms.tail.foldl (fun p c => mulAdd p r c) (exponentialTerms.headD 0)
  let square (t : Float) := t * (t + 2)
  let t := square (square (square t))
  Float.scaleB (mulAdd t (t + 2) 1) n.toInt64.toInt

/-! ## Logarithm -/

/-- The logarithm of a positive number `2 ^ k · (1 + f)`, where `1 + f` is about one. The number is taken
apart by the fields of its word, also where its fraction has no leading one. -/
def logarithm (x : Float) : Float :=
  let x := Decimal.Binary64.ofBits x.toBits
  let half := Float.ofBits (UInt64.ofNat (0x3fe0000000000000 + x.fraction))
  let k := Float.ofInt ((x.exponent : Int) - 1022)
  let (k, f) := if half ≤ 7.07106781186547524401e-01 then (k - 1, half * 2 - 1) else (k, half - 1)
  let s := f / (2 + f)
  let s2 := s * s
  let s4 := s2 * s2
  let odd := s2 * (6.666666666666735130e-01 + s4 * (2.857142874366239149e-01 +
    s4 * (1.818357216161805012e-01 + s4 * 1.479819860511658591e-01)))
  let even := s4 * (3.999999999940941908e-01 + s4 * (2.222219843214978396e-01 + s4 * 1.531383769920937332e-01))
  let h := 0.5 * f * f
  k * 6.93147180369123816490e-01 - ((h - (s * (h + (odd + even)) + k * 1.90821492927058770002e-10)) - f)

end RubyMachine.Number
