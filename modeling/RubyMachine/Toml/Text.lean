import RubyMachine.Bytes.Basic

/-! Strings of TOML: basic ones with escapes and literal ones without, on one line or on several. -/

namespace RubyMachine.Toml

/-- A parser takes what it needs from the front, or fails. -/
abbrev Parser (α : Type) := List Char → Option (α × List Char)

def isBlank (c : Char) : Bool := c == ' ' || c == '\t'

def isNewline (c : Char) : Bool := c == '\n' || c == '\r'

/-- The character that hexadecimal digits denote. -/
def charOfHex (digits : List Char) : Option Char := do
  let n ← digits.foldlM (fun n c => (Bytes.hexValue? c).map (16 * n + ·)) 0
  if n.isValidChar then some (Char.ofNat n) else none

/-- The number of digits after the letter of a numeric escape. -/
def escapeDigits? : Char → Option Nat
  | 'x' => some 2
  | 'u' => some 4
  | 'U' => some 8
  | _ => none

/-- Escapes of one letter. -/
def escaped? : Char → Option Char
  | 'b' => some '\x08'
  | 't' => some '\t'
  | 'n' => some '\n'
  | 'f' => some '\x0c'
  | 'r' => some '\r'
  | 'e' => some '\x1b'
  | '"' => some '"'
  | '\\' => some '\\'
  | _ => none

/-- Replaces escapes, up to `fuel` characters. -/
def unescape : Nat → List Char → Option (List Char)
  | _, [] => some []
  | 0, _ => none
  | fuel + 1, '\\' :: c :: rest =>
    match escapeDigits? c with
    | some n =>
      if rest.length < n then none
      else do
        let d ← charOfHex (rest.take n)
        return d :: (← unescape fuel (rest.drop n))
    | none => do
      let d ← escaped? c
      return d :: (← unescape fuel rest)
  | _ + 1, ['\\'] => none
  | fuel + 1, c :: rest => do return c :: (← unescape fuel rest)

def decodeEscapes (raw : List Char) : Option String :=
  (unescape raw.length raw).map String.ofList

/-! ## One line -/

/-- What stands before the closing quote of a basic string, escapes as they are. -/
def basicBody : Parser (List Char)
  | [] => none
  | '"' :: rest => some ([], rest)
  | '\\' :: c :: rest => do
    let (body, rest) ← basicBody rest
    return ('\\' :: c :: body, rest)
  | c :: rest => do
    if isNewline c then none
    let (body, rest) ← basicBody rest
    return (c :: body, rest)

/-- The rest of a basic string after its opening quote. -/
def basicString : Parser String := fun s => do
  let (body, rest) ← basicBody s
  return (← decodeEscapes body, rest)

/-- The rest of a literal string after its opening quote. -/
def literalString : Parser String := fun s =>
  let body := s.takeWhile fun c => c != '\'' && !isNewline c
  match s.drop body.length with
  | '\'' :: rest => some (String.ofList body, rest)
  | _ => none

/-! ## Several lines -/

/-- What stands before three closing quotes. One or two more quotes may stand right before them, which
belong to the text. `before` is the text so far, last character first. -/
def longBody (quote : Char) (escapes : Bool) : Nat → List Char → Parser (List Char)
  | 0, _, _ => none
  | _ + 1, _, [] => none
  | fuel + 1, before, c :: rest =>
    if escapes ∧ c = '\\' then
      match rest with
      | [] => none
      | d :: rest => longBody quote escapes fuel (d :: c :: before) rest
    else if c = quote ∧ rest.take 2 = [quote, quote] then
      if (rest.drop 2).head? = some quote then
        let five := (quote :: quote :: quote :: before).take 5 = List.replicate 5 quote
        let opened := escapes ∧ (before.drop 2).head? = some '\\'
        if five ∧ ¬opened then none else longBody quote escapes fuel (c :: before) rest
      else some (before.reverse, rest.drop 2)
    else longBody quote escapes fuel (c :: before) rest

/-- A newline right after the opening quotes does not count. -/
def dropFirstNewline : List Char → List Char
  | '\n' :: rest => rest
  | '\r' :: '\n' :: rest => rest
  | s => s

/-- Takes out each backslash at the end of a line, with the blanks and newlines that follow it. -/
def joinLines : Nat → List Char → List Char
  | 0, s => s
  | _ + 1, [] => []
  | fuel + 1, '\\' :: '\\' :: rest => '\\' :: '\\' :: joinLines fuel rest
  | fuel + 1, '\\' :: rest =>
    let gap := rest.takeWhile fun c => isBlank c || isNewline c
    if gap.contains '\n' then joinLines fuel (rest.drop gap.length) else '\\' :: joinLines fuel rest
  | fuel + 1, c :: rest => c :: joinLines fuel rest

/-- The rest of a basic string on several lines after its opening quotes. -/
def longBasicString : Parser String := fun s => do
  let (body, rest) ← longBody '"' true (s.length + 1) [] s
  let text := dropFirstNewline body
  return (← decodeEscapes (joinLines text.length text), rest)

/-- The rest of a literal string on several lines after its opening quotes. -/
def longLiteralString : Parser String := fun s => do
  let (body, rest) ← longBody '\'' false (s.length + 1) [] s
  return (String.ofList (dropFirstNewline body), rest)

end RubyMachine.Toml
