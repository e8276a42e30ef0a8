import RubyMachine.Bytes.Basic
import RubyMachine.Decimal.Layout

/-! Values: 64-bit words that hold a float or, inside the quiet NaNs, a tagged payload of 48 bits.

Three bits below the quiet bit are the tag. Tags 0 and 7 are left to the NaNs that a computation may
produce, so every float is its own word and no float has a tag. -/

namespace RubyMachine

/-- An interned name. -/
structure Ident where
  id : UInt32
  deriving DecidableEq, Inhabited

/-- A function number; 0 stands for no function. -/
structure FnId where
  id : UInt32
  deriving DecidableEq, Inhabited

/-- A heap handle: page, cell in the page, and the generation of the cell when it was handed out. -/
structure Ref where
  bits : UInt64
  deriving DecidableEq, Inhabited

namespace Ref

def make (page cell : UInt64) (gen : UInt16) : Ref :=
  ⟨page <<< 28 ||| cell <<< 16 ||| gen.toUInt64⟩

def page (r : Ref) : Nat := ((r.bits >>> 28) &&& 0xFFFFF).toNat

def cell (r : Ref) : Nat := ((r.bits >>> 16) &&& 0xFFF).toNat

def gen (r : Ref) : UInt16 := r.bits.toUInt16

def text (r : Ref) : String :=
  "ref(" ++ toString r.page ++ ":" ++ toString r.cell ++ "@" ++ toString r.gen.toNat ++ ")"

end Ref

structure Value where
  bits : UInt64
  deriving DecidableEq, Inhabited

namespace Value

def quietNaN : UInt64 := 0x7FF8000000000000
def tagMask : UInt64 := 0x0007000000000000
def payloadMask : UInt64 := 0x0000FFFFFFFFFFFF

def refTag : UInt64 := 0x0001000000000000
def fixnumTag : UInt64 := 0x0002000000000000
def specialTag : UInt64 := 0x0003000000000000
def symbolTag : UInt64 := 0x0004000000000000
def frameTag : UInt64 := 0x0005000000000000
def blockTag : UInt64 := 0x0006000000000000

def tagged (tag payload : UInt64) : Value := ⟨quietNaN ||| tag ||| payload⟩

def nil : Value := tagged specialTag 0
def true : Value := tagged specialTag 1
def false : Value := tagged specialTag 2

/-- Fills a parameter slot for which the caller gave no argument. -/
def uninit : Value := tagged specialTag 3

/-- The word of a stack slot that was never written; it reads as the float zero. -/
def zero : Value := ⟨0⟩

/-! ## Kinds -/

def tag (v : Value) : UInt64 := v.bits &&& (quietNaN ||| tagMask)

def hasTag (v : Value) (t : UInt64) : Bool := v.tag == quietNaN ||| t

def isFloat (v : Value) : Bool :=
  v.bits &&& 0x7FF0000000000000 != 0x7FF0000000000000 ||
  v.bits &&& 0x000FFFFFFFFFFFFF == 0 ||
  v.bits &&& quietNaN != quietNaN ||
  v.bits &&& tagMask == 0 || v.bits &&& tagMask == tagMask

def isFixnum (v : Value) : Bool := v.hasTag fixnumTag
def isRef (v : Value) : Bool := v.hasTag refTag
def isSymbol (v : Value) : Bool := v.hasTag symbolTag
def isFrame (v : Value) : Bool := v.hasTag frameTag
def isBlock (v : Value) : Bool := v.hasTag blockTag
def isNil (v : Value) : Bool := v == nil
def isUninit (v : Value) : Bool := v == uninit
def isBool (v : Value) : Bool := v == true || v == false

/-- Everything but `nil` and `false` counts as true. -/
def isTruthy (v : Value) : Bool := v != false && v != nil

def isNumeric (v : Value) : Bool := v.isFixnum || v.isFloat

/-! ## Constructors and their payloads -/

def payload (v : Value) : UInt64 := v.bits &&& payloadMask

def ofBool (b : Bool) : Value := if b then true else false

/-- All NaNs become one word, so that none of them carries a tag. -/
def ofFloatBits (bits : UInt64) : Value :=
  if (Decimal.Binary64.ofBits bits).isNaN then ⟨quietNaN⟩ else ⟨bits⟩

def ofFloat (f : Float) : Value := ofFloatBits f.toBits

def toFloat (v : Value) : Float := Float.ofBits v.bits

def maxFixnum : Int := 0x7fffffffffff
def minFixnum : Int := -0x800000000000

/-- The low 48 bits of `n` under the integer tag. -/
def ofInt (n : Int) : Value := tagged fixnumTag (UInt64.ofNat (n % 0x1000000000000).toNat)

def ofInt? (n : Int) : Option Value :=
  if n > maxFixnum ∨ n < minFixnum then none else some (ofInt n)

/-- The payload as a signed number of 48 bits. -/
def toInt (v : Value) : Int :=
  let p := v.payload.toNat
  if p < 0x800000000000 then p else (p : Int) - 0x1000000000000

def ofSymbol (i : Ident) : Value := tagged symbolTag i.id.toUInt64

def toSymbol (v : Value) : Ident := ⟨v.payload.toUInt32⟩

def ofRef (r : Ref) : Value := tagged refTag (r.bits &&& payloadMask)

def toRef (v : Value) : Ref := ⟨v.payload⟩

/-- A stack frame named by the slot of its first control word. -/
def ofFrame (offset : UInt64) : Value := tagged frameTag (offset &&& payloadMask)

def frameAt (offset : Nat) : Value := ofFrame (UInt64.ofNat offset)

def toFrame (v : Value) : Nat := v.payload.toNat

/-- A block of a live frame: function number and frame slot, 24 bits each. -/
def ofBlock (fn : FnId) (frame : UInt64) : Value :=
  tagged blockTag ((fn.id.toUInt64 &&& 0xFFFFFF) <<< 24 ||| frame &&& 0xFFFFFF)

def toBlock (v : Value) : FnId × Nat :=
  (⟨(v.payload >>> 24).toUInt32⟩, (v.payload &&& 0xFFFFFF).toNat)

/-! ## Text -/

def text (v : Value) : String :=
  if v == nil then "nil"
  else if v == true then "true"
  else if v == false then "false"
  else if v == uninit then "<uninit>"
  else if v.isFixnum then toString v.toInt
  else if v.isFloat then Decimal.general v.bits
  else if v.isSymbol then ":" ++ toString v.toSymbol.id.toNat
  else if v.isRef then v.toRef.text
  else if v.isFrame then "frame(" ++ toString v.toFrame ++ ")"
  else if v.isBlock then
    let (fn, frame) := v.toBlock
    "block(" ++ toString fn.id.toNat ++ "," ++ toString frame ++ ")"
  else "Value(0x" ++ String.ofList (Nat.toDigits 16 v.bits.toNat) ++ ")"

end Value

end RubyMachine
