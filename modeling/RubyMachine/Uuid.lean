import RubyMachine.Text.Quoted

/-! Identifiers of 16 bytes. -/

namespace RubyMachine

structure Uuid where
  bytes : Bytes := Array.replicate 16 0
  deriving DecidableEq

namespace Uuid

/-- Hexadecimal digits in groups of 8, 4, 4, 4 and 12. -/
def text (u : Uuid) : String :=
  let digits := u.bytes.toHex.toList
  let part (start length : Nat) := String.ofList ((digits.drop start).take length)
  "-".intercalate [part 0 8, part 8 4, part 12 4, part 16 4, part 20 12]

def urnLabel : String := "urn:uuid:"

inductive ParseError where
  | length (n : Nat)
  /-- A text of the length of a labelled one starts with something else. -/
  | label (text : String)
  | format
  deriving DecidableEq

def ParseError.message : ParseError → String
  | length n => "invalid UUID length: " ++ toString n
  | label s => "invalid urn prefix: " ++ Text.quoteHead urnLabel.utf8ByteSize s
  | format => "invalid UUID format"

def ofDigits (digits : List UInt8) : Except ParseError Uuid :=
  match Bytes.ofHexChars? (digits.map fun b => Char.ofNat b.toNat) with
  | some bytes => .ok ⟨bytes.toArray⟩
  | none => .error .format

/-- The 36 bytes of the grouped form; what follows them is not looked at. -/
def ofGroups (s : List UInt8) : Except ParseError Uuid :=
  let hyphen : UInt8 := 45
  if [8, 13, 18, 23].any fun i => s[i]? != some hyphen then .error .format
  else
    let part (start length : Nat) := (s.drop start).take length
    ofDigits (part 0 8 ++ part 9 4 ++ part 14 4 ++ part 19 4 ++ part 24 12)

/-- Reads the grouped form, bare, after a label or between braces, or the digits alone. -/
def parse (s : String) : Except ParseError Uuid :=
  let b := s.toUTF8.toList
  match b.length with
  | 36 => ofGroups b
  | 45 =>
    let label := (b.take 9).map fun c => Char.ofNat c.toNat
    if (String.ofList label).toLower = urnLabel then ofGroups (b.drop 9) else .error (.label s)
  | 38 => ofGroups (b.drop 1)
  | 32 => ofDigits b
  | n => .error (.length n)

end Uuid

end RubyMachine
