import RubyMachine.Bytes.Basic
import RubyMachine.Text.Graphic

/-! Quoted text: graphic characters stand for themselves, the others are escaped. -/

namespace RubyMachine.Text

/-- Control characters with an escape of one letter. -/
def letterEscape? (c : Char) : Option Char :=
  match c.toNat with
  | 7 => some 'a'
  | 8 => some 'b'
  | 9 => some 't'
  | 10 => some 'n'
  | 11 => some 'v'
  | 12 => some 'f'
  | 13 => some 'r'
  | _ => none

/-- A byte by its number. -/
def escapeByte (n : Nat) : List Char := '\\' :: 'x' :: (Bytes.hexOfNat 2 n).toList

def escape (c : Char) : List Char :=
  if c = '"' ∨ c = '\\' then ['\\', c]
  else if isGraphic c then [c]
  else match letterEscape? c with
    | some l => ['\\', l]
    | none =>
      let n := c.toNat
      if n < 0x80 then escapeByte n
      else if n < 0x10000 then '\\' :: 'u' :: (Bytes.hexOfNat 4 n).toList
      else '\\' :: 'U' :: (Bytes.hexOfNat 8 n).toList

def quote (s : String) : String :=
  String.ofList ('"' :: s.toList.flatMap escape ++ ['"'])

/-- Escapes the first `n` bytes of a text. Of a character that is cut in two, each byte is escaped on
its own. -/
def escapeHead : Nat → List Char → List Char
  | _, [] => []
  | n, c :: cs =>
    if c.utf8Size ≤ n then escape c ++ escapeHead (n - c.utf8Size) cs
    else (((String.singleton c).toUTF8.toList).take n).flatMap fun b => escapeByte b.toNat

/-- The first `n` bytes of a text, quoted. -/
def quoteHead (n : Nat) (s : String) : String :=
  String.ofList ('"' :: escapeHead n s.toList ++ ['"'])

end RubyMachine.Text
