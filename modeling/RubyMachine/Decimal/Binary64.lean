/-! Double-precision floats as integers: a finite one is `± m · 2 ^ q`. -/

namespace RubyMachine.Decimal

structure Binary64 where
  negative : Bool
  /-- The biased exponent field. -/
  exponent : Nat
  /-- The 52-bit fraction field. -/
  fraction : Nat

namespace Binary64

def ofBits (b : UInt64) : Binary64 where
  negative := b >>> 63 != 0
  exponent := ((b >>> 52) &&& 0x7ff).toNat
  fraction := (b &&& 0xfffffffffffff).toNat

def isNaN (x : Binary64) : Bool := x.exponent == 2047 && x.fraction != 0

def isInfinite (x : Binary64) : Bool := x.exponent == 2047 && x.fraction == 0

/-- The integer `m` of `m · 2 ^ q`. -/
def mantissa (x : Binary64) : Nat :=
  if x.exponent = 0 then x.fraction else x.fraction + 0x10000000000000

/-- The power `q` of `m · 2 ^ q`. -/
def power (x : Binary64) : Int :=
  if x.exponent = 0 then -1074 else (x.exponent : Int) - 1075

end Binary64

end RubyMachine.Decimal
