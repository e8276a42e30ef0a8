/-! Byte strings: little-endian words and hexadecimal text. -/

namespace RubyMachine

abbrev Bytes := Array UInt8

namespace Bytes

/-! ## Little-endian words -/

def u16At? (b : Bytes) (i : Nat) : Option UInt16 :=
  if h : i + 2 ≤ b.size then
    some (b[i].toUInt16 ||| b[i + 1].toUInt16 <<< 8)
  else none

def u32At? (b : Bytes) (i : Nat) : Option UInt32 :=
  if h : i + 4 ≤ b.size then
    some (b[i].toUInt32 ||| b[i + 1].toUInt32 <<< 8 ||| b[i + 2].toUInt32 <<< 16 |||
      b[i + 3].toUInt32 <<< 24)
  else none

def u64At? (b : Bytes) (i : Nat) : Option UInt64 := do
  let lo ← b.u32At? i
  let hi ← b.u32At? (i + 4)
  return lo.toUInt64 ||| hi.toUInt64 <<< 32

def le16 (v : UInt16) : List UInt8 := [v.toUInt8, (v >>> 8).toUInt8]

def le32 (v : UInt32) : List UInt8 :=
  [v.toUInt8, (v >>> 8).toUInt8, (v >>> 16).toUInt8, (v >>> 24).toUInt8]

def le64 (v : UInt64) : List UInt8 := le32 v.toUInt32 ++ le32 (v >>> 32).toUInt32

/-- Overwrites the bytes from `i` on; bytes past the end are dropped. -/
def overwrite (b : Bytes) (i : Nat) : List UInt8 → Bytes
  | [] => b
  | x :: xs => overwrite (b.setIfInBounds i x) (i + 1) xs

@[simp] theorem size_overwrite (b : Bytes) (i : Nat) (xs : List UInt8) :
    (overwrite b i xs).size = b.size := by
  induction xs generalizing b i with
  | nil => rfl
  | cons x xs ih => simp [overwrite, ih]

/-! ## Hexadecimal text -/

def hexDigit (n : Nat) : Char := Char.ofNat (if n < 10 then 48 + n else 87 + n)

def hexValue? (c : Char) : Option Nat :=
  if '0' ≤ c ∧ c ≤ '9' then some (c.toNat - 48)
  else if 'a' ≤ c ∧ c ≤ 'f' then some (c.toNat - 87)
  else if 'A' ≤ c ∧ c ≤ 'F' then some (c.toNat - 55)
  else none

/-- Two lowercase digits per byte. -/
def toHex (b : Bytes) : String :=
  String.ofList (b.toList.flatMap fun x => [hexDigit (x.toNat / 16), hexDigit (x.toNat % 16)])

def ofHexChars? : List Char → Option (List UInt8)
  | [] => some []
  | [_] => none
  | a :: b :: rest => do
    let hi ← hexValue? a
    let lo ← hexValue? b
    return UInt8.ofNat (16 * hi + lo) :: (← ofHexChars? rest)

def ofHex? (s : String) : Option Bytes := (ofHexChars? s.toList).map List.toArray

/-- The number a digit string denotes, most significant digit first. -/
def natOfHex? (s : String) : Option Nat :=
  s.toList.foldlM (fun n c => (hexValue? c).map (16 * n + ·)) 0

/-- Exactly `width` digits, most significant first. -/
def hexOfNat (width n : Nat) : String :=
  String.ofList ((List.range width).reverse.map fun k => hexDigit (n >>> (4 * k) % 16))

end Bytes

end RubyMachine
