import RubyMachine.Number.Narrow
import RubyMachine.Bytes.Basic

/-! Data items of CBOR, and their canonical bytes: shortest lengths, integers and floats, with the
entries of a map in the order given. -/

namespace RubyMachine.Cbor

inductive Item where
  | unsigned (n : Nat)
  /-- The integer `-1 - n`. -/
  | negative (n : Nat)
  | bytes (b : Bytes)
  /-- Text as chunks of UTF-8; text of known length is one chunk. -/
  | text (chunks : List Bytes)
  | array (items : List Item)
  | map (entries : List (Item × Item))
  | tag (number : Nat) (content : Item)
  /-- The values without content: 20 is false, 21 true, 22 null, 23 undefined. -/
  | simple (n : Nat)
  /-- A float as its 64-bit word. -/
  | float (bits : UInt64)
  deriving Inhabited

namespace Item

def ofNat (n : Nat) : Item := .unsigned n

def ofInt (n : Int) : Item :=
  if n < 0 then .negative (-1 - n).toNat else .unsigned n.toNat

def ofBool (b : Bool) : Item := .simple (if b then 21 else 20)

def ofString (s : String) : Item := .text [s.toUTF8.data]

def null : Item := .simple 22

/-! ## Canonical bytes -/

def bigEndian (width n : Nat) : List UInt8 :=
  (List.range width).reverse.map fun k => UInt8.ofNat (n >>> (8 * k))

/-- The first byte of an item with its length or number, in the fewest bytes. -/
def head (major n : Nat) : List UInt8 :=
  let first (info : Nat) : UInt8 := UInt8.ofNat (32 * major + info)
  if n < 24 then [first n]
  else if n < 0x100 then first 24 :: bigEndian 1 n
  else if n < 0x10000 then first 25 :: bigEndian 2 n
  else if n < 0x100000000 then first 26 :: bigEndian 4 n
  else first 27 :: bigEndian 8 n

/-- A float in the narrowest format that holds it. -/
def floatBytes (bits : UInt64) : List UInt8 :=
  match Number.NarrowFormat.half.narrow? bits, Number.NarrowFormat.single.narrow? bits with
  | some h, _ => 0xf9 :: bigEndian 2 h
  | none, some s => 0xfa :: bigEndian 4 s
  | none, none => 0xfb :: bigEndian 8 bits.toNat

mutual

def encode : Item → List UInt8
  | .unsigned n => head 0 n
  | .negative n => head 1 n
  | .bytes b => head 2 b.size ++ b.toList
  | .text chunks =>
    let all := chunks.flatMap Array.toList
    head 3 all.length ++ all
  | .array items => head 4 items.length ++ encodeAll items
  | .map entries => head 5 entries.length ++ encodeEntries entries
  | .tag n content => head 6 n ++ encode content
  | .simple n => head 7 n
  | .float bits => floatBytes bits

def encodeAll : List Item → List UInt8
  | [] => []
  | x :: xs => encode x ++ encodeAll xs

def encodeEntries : List (Item × Item) → List UInt8
  | [] => []
  | (k, v) :: rest => encode k ++ encode v ++ encodeEntries rest

end

end Item

end RubyMachine.Cbor
