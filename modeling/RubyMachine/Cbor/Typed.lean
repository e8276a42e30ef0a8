import RubyMachine.Cbor.Decode
import RubyMachine.Number.Word

/-! Items as typed values. Null stands for the value that a type starts with; tags are looked through. -/

namespace RubyMachine.Cbor

/-- How an item is taken for a value of some type. -/
abbrev Typed (α : Type) := Item → Except Error α

namespace Item

/-- Dates are text or numbers, and large integers are byte strings; other tags say nothing. -/
def fitsTag : Nat → Item → Bool
  | 0, .text _ => true
  | 0, _ => false
  | 1, .unsigned _ => true
  | 1, .negative _ => true
  | 1, .float _ => true
  | 1, _ => false
  | 2, .bytes _ => true
  | 2, _ => false
  | 3, .bytes _ => true
  | 3, _ => false
  | _, _ => true

/-- Every tag of a chain has content that suits it. -/
def tagsFit : Item → Bool
  | .tag n content => fitsTag n content && tagsFit content
  | _ => true

/-- The item under its tags, or under those above a large integer. -/
def untagged : Item → Item
  | .tag n content => if n = 2 ∨ n = 3 then .tag n content else untagged content
  | x => x

def isNull : Item → Bool
  | .simple n => n == 22 || n == 23
  | _ => false

end Item

namespace Typed

/-- Reads what stands under the tags, with null as `zero`. -/
def plain {α : Type} (zero : α) (f : Typed α) : Typed α := fun x =>
  if !x.tagsFit then .error .mismatch
  else if x.untagged.isNull then .ok zero
  else f x.untagged

def natOfBytes (b : Bytes) : Nat := b.foldl (fun n d => 256 * n + d.toNat) 0

/-- Integers of at most 64 bits; simple values count as their numbers. -/
def number : Typed Int
  | .unsigned n => .ok n
  | .negative n => if n ≤ Number.maxWord then .ok (-1 - n) else .error .mismatch
  | .simple n => if n = 20 ∨ n = 21 then .error .mismatch else .ok n
  | .tag 2 (.bytes b) => if natOfBytes b < Number.wordCount then .ok (natOfBytes b) else .error .mismatch
  | .tag 3 (.bytes b) => if natOfBytes b ≤ Number.maxWord then .ok (-1 - natOfBytes b) else .error .mismatch
  | _ => .error .mismatch

/-- Integers from `low` to `high`. -/
def between (low high : Int) : Typed Int := plain 0 fun x => do
  let n ← number x
  if low ≤ n ∧ n ≤ high then return n else throw .mismatch

def int64 : Typed Int := between (-Number.maxWord - 1) Number.maxWord

def uint32 : Typed UInt32 := fun x => return UInt32.ofNat (← between 0 0xffffffff x).toNat

def uint8 : Typed UInt8 := fun x => return UInt8.ofNat (← between 0 255 x).toNat

def bool : Typed Bool := plain false fun
  | .simple 20 => .ok false
  | .simple 21 => .ok true
  | _ => .error .mismatch

/-- A float as its word; an integer is rounded to one. -/
def float : Typed UInt64 := plain 0 fun
  | .float bits => .ok bits
  | x => do return (Float.ofInt (← number x)).toBits

def utf8 (chunks : List Bytes) : Except Error String := do
  let parts ← chunks.mapM fun c =>
    match String.fromUTF8? ⟨c⟩ with
    | some s => .ok s
    | none => .error .mismatch
  return String.join parts

def text : Typed String := plain "" fun
  | .text chunks => utf8 chunks
  | _ => .error .mismatch

/-- A list, or nothing where null stands for it. -/
def list {α : Type} (f : Typed α) : Typed (Option (List α)) := plain none fun
  | .array items => do return some (← items.mapM f)
  | _ => .error .mismatch

/-- A byte string, which may also be written as a list of its bytes. -/
def bytes : Typed (Option Bytes) := plain none fun
  | .bytes b => .ok (some b)
  | .tag _ (.bytes b) => .ok (some b)
  | .array items => do return some (← items.mapM uint8).toArray
  | _ => .error .mismatch

/-- A value that may be left out. Only a null without tags leaves it out. -/
def optional {α : Type} (f : Typed α) : Typed (Option α) := fun x =>
  if x.isNull then .ok none else do return some (← f x)

/-! ## Records -/

/-- The entries of a record, by field number. -/
abbrev Fields := List (Nat × Item)

/-- The field a key names: its number, or the decimal text of it. Keys of other types are refused. -/
def fieldKey : Item → Except Error (Option Nat)
  | .unsigned n => .ok (some n)
  | .negative n => if n ≤ Number.maxWord then .ok none else .error .mismatch
  | .text chunks => do
    let s ← utf8 chunks
    let n := s.toList.foldl (fun n c => 10 * n + (c.toNat - '0'.toNat)) 0
    return if toString n = s then some n else none
  | _ => .error .mismatch

def fields : List (Item × Item) → Except Error Fields
  | [] => .ok []
  | (k, v) :: rest => do
    let key ← fieldKey k
    let others ← fields rest
    return match key with
      | some n => (n, v) :: others
      | none => others

/-- A record from the map of its fields; null is the record without fields. -/
def record {α : Type} (f : Fields → Except Error α) : Typed α := fun x =>
  if !x.tagsFit then .error .mismatch
  else if x.untagged.isNull then f []
  else match x.untagged with
    | .map entries => do f (← fields entries)
    | _ => .error .mismatch

/-- The first entry for a field; a field without one is read from null. -/
def field {α : Type} (fs : Fields) (n : Nat) (f : Typed α) : Except Error α :=
  f ((fs.lookup n).getD .null)

end Typed

end RubyMachine.Cbor
