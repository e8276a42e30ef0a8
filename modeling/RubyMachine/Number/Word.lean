/-! The range of machine integers of 64 bits. -/

namespace RubyMachine.Number

/-- The number of words of 64 bits. -/
def wordCount : Nat := 0x10000000000000000

/-- The largest integer of 64 bits with a sign. -/
def maxWord : Nat := 0x7fffffffffffffff

/-- 64 bits with a sign can hold `n`. -/
def fitsWord (n : Int) : Bool := -maxWord - 1 ≤ n && n ≤ maxWord

/-- What is left of `n` in 64 bits with a sign. -/
def wrap (n : Int) : Int := n.bmod wordCount

end RubyMachine.Number
