import RubyMachine.Decimal.Binary64

/-! Float formats narrower than 64 bits: exact widening, and narrowing where nothing is lost. -/

namespace RubyMachine.Number

/-- A binary format: a sign bit, an exponent field and a fraction field. -/
structure NarrowFormat where
  exponentBits : Nat
  fractionBits : Nat

namespace NarrowFormat

def half : NarrowFormat := ⟨5, 10⟩

def single : NarrowFormat := ⟨8, 23⟩

def bias (f : NarrowFormat) : Nat := 1 <<< (f.exponentBits - 1) - 1

/-- The exponent field of infinities and NaNs. -/
def special (f : NarrowFormat) : Nat := 1 <<< f.exponentBits - 1

/-- The power of two of the lowest normal number. -/
def lowest (f : NarrowFormat) : Int := 1 - f.bias

def assemble (f : NarrowFormat) (negative : Bool) (exponent fraction : Nat) : Nat :=
  (if negative then 1 <<< (f.exponentBits + f.fractionBits) else 0) + exponent <<< f.fractionBits + fraction

def double : NarrowFormat := ⟨11, 52⟩

/-- The 64-bit word of the same number. A NaN stays one and becomes quiet. -/
def widen (f : NarrowFormat) (bits : Nat) : UInt64 :=
  let negative := bits.testBit (f.exponentBits + f.fractionBits)
  let exponent := bits >>> f.fractionBits % 1 <<< f.exponentBits
  let fraction := bits % 1 <<< f.fractionBits
  let shift := 52 - f.fractionBits
  UInt64.ofNat <|
    if exponent = f.special then
      if fraction = 0 then double.assemble negative 2047 0
      else double.assemble negative 2047 (1 <<< 51 ||| fraction <<< shift)
    else if exponent ≠ 0 then double.assemble negative (exponent + 1023 - f.bias) (fraction <<< shift)
    else if fraction = 0 then double.assemble negative 0 0
    else
      let lead := fraction.log2
      let power := f.lowest - f.fractionBits + lead
      double.assemble negative (power + 1023).toNat (fraction <<< (52 - lead) - 1 <<< 52)

/-- The word of this format that stands for the same number, if there is one. -/
def narrow? (f : NarrowFormat) (bits : UInt64) : Option Nat :=
  let x := Decimal.Binary64.ofBits bits
  if x.isNaN then some (f.assemble false f.special (1 <<< (f.fractionBits - 1)))
  else if x.isInfinite then some (f.assemble x.negative f.special 0)
  else if x.mantissa = 0 then some (f.assemble x.negative 0 0)
  else
    let power := x.power + x.mantissa.log2
    let unit := max power f.lowest - f.fractionBits
    if power > f.bias then none
    else
      let significand := x.mantissa <<< (x.power - unit).toNat
      let excess := 1 <<< (unit - x.power).toNat
      if significand % excess ≠ 0 then none
      else if power < f.lowest then some (f.assemble x.negative 0 (significand / excess))
      else some (f.assemble x.negative (power + f.bias).toNat (significand / excess - 1 <<< f.fractionBits))

end NarrowFormat

end RubyMachine.Number
