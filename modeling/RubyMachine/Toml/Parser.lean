import RubyMachine.Toml.Scalar

/-! The statements of a TOML document. -/

namespace RubyMachine.Toml

/-- A key with dots, as its parts. -/
abbrev KeyPath := List String

inductive Value where
  | string (s : String)
  | integer (n : Int)
  | float (text : String)
  | boolean (b : Bool)
  | date (text : String)
  | array (items : List Value)
  | table (entries : List (KeyPath × Value))

inductive Statement where
  | assign (key : KeyPath) (value : Value)
  | table (path : KeyPath)
  /-- One more element of an array of tables. -/
  | element (path : KeyPath)

def skipBlanks (s : List Char) : List Char := s.dropWhile isBlank

/-- A comment reaches to the end of its line. -/
def skipComment : List Char → List Char
  | '#' :: rest => rest.dropWhile fun c => !isNewline c
  | s => s

/-- Blanks, newlines and comments. -/
def skipSpace : Nat → List Char → List Char
  | 0, s => s
  | fuel + 1, c :: rest =>
    if isBlank c || isNewline c then skipSpace fuel rest
    else if c = '#' then skipSpace fuel (skipComment (c :: rest))
    else c :: rest
  | _ + 1, [] => []

def skipAll (s : List Char) : List Char := skipSpace s.length s

/-! ## Keys -/

def isBare (c : Char) : Bool := c.isAlphanum || c == '_' || c == '-'

def keyPart : Parser String
  | '"' :: rest => basicString rest
  | '\'' :: rest => literalString rest
  | s =>
    let name := s.takeWhile isBare
    if name.isEmpty then none else some (String.ofList name, s.drop name.length)

/-- Parts joined by dots, with blanks around each. -/
def keyPath : Nat → Parser KeyPath
  | 0, _ => none
  | fuel + 1, s => do
    let (part, rest) ← keyPart (skipBlanks s)
    match skipBlanks rest with
    | '.' :: rest =>
      let (parts, rest) ← keyPath fuel rest
      return (part :: parts, rest)
    | rest => return ([part], rest)

/-! ## Values -/

def isDateChar (c : Char) : Bool := c.isDigit || "-:Tt .Zz+".toList.contains c

def isFloatChar (c : Char) : Bool := c.isDigit || "_.-+eE".toList.contains c

/-- A scalar of the characters that pass, checked and built from them. -/
def run (p : Char → Bool) (build : List Char → Option Value) : Parser Value := fun s => do
  let text := s.takeWhile p
  return (← build text, s.drop text.length)

def floatValue (s : List Char) : Option Value := if isFloat s then some (.float (String.ofList s)) else none

def dateValue (s : List Char) : Option Value :=
  let text := (s.reverse.dropWhile isBlank).reverse
  if isDateTime text then some (.date (String.ofList text)) else none

def integerValue (s : List Char) : Option Value := (integer? s).map Value.integer

/-- A number without a base, or a date; its kind is told by the first character that is no digit. -/
def decimalOrDate (signed : Bool) : Parser Value := fun s =>
  let start := if signed then 1 else 0
  let digits := (s.drop start).takeWhile fun c => c.isDigit || c == '_'
  if !(digits.head?.map Char.isDigit).getD false then none
  else match (s.drop (start + digits.length)).head? with
    | some c =>
      if c == '.' || c == 'e' || c == 'E' then run isFloatChar floatValue s
      else if (c == '-' || c == ':') && !signed then run isDateChar dateValue s
      else run (fun c => c.isDigit || c == '_' || c == '-' || c == '+') integerValue s
    | none => run (fun c => c.isDigit || c == '_' || c == '-' || c == '+') integerValue s

def number : Parser Value
  | '0' :: 'x' :: rest => run (fun c => isHexDigit c || c == '_' || c == 'x') integerValue ('0' :: 'x' :: rest)
  | '0' :: 'o' :: rest => run (fun c => c.isDigit || c == '_' || c == 'o') integerValue ('0' :: 'o' :: rest)
  | '0' :: 'b' :: rest => run (fun c => c.isDigit || c == '_' || c == 'b') integerValue ('0' :: 'b' :: rest)
  | '+' :: rest => decimalOrDate true ('+' :: rest)
  | '-' :: rest => decimalOrDate true ('-' :: rest)
  | s => decimalOrDate false s

/-- The words that are values. -/
def words : List (String × Value) :=
  [("true", .boolean true), ("false", .boolean false), ("inf", .float "inf"), ("+inf", .float "+inf"),
   ("-inf", .float "-inf"), ("nan", .float "nan"), ("+nan", .float "nan"), ("-nan", .float "nan")]

def word : Parser Value := fun s =>
  let text := String.ofList (s.takeWhile fun c => c.isAlphanum || c == '+' || c == '-' || c == '_')
  (words.lookup text).map fun v => (v, s.drop text.length)

def scalar : Parser Value
  | '"' :: '"' :: '"' :: rest => do
    let (t, rest) ← longBasicString rest
    return (.string t, rest)
  | '"' :: rest => do
    let (t, rest) ← basicString rest
    return (.string t, rest)
  | '\'' :: '\'' :: '\'' :: rest => do
    let (t, rest) ← longLiteralString rest
    return (.string t, rest)
  | '\'' :: rest => do
    let (t, rest) ← literalString rest
    return (.string t, rest)
  | s => (word s).or (number s)

mutual

def value : Nat → Parser Value
  | 0, _ => none
  | fuel + 1, '[' :: rest => do
    let (items, rest) ← items fuel (skipAll rest)
    return (.array items, rest)
  | fuel + 1, '\x7b' :: rest => do
    let (entries, rest) ← entries fuel (skipAll rest)
    return (.table entries, rest)
  | _ + 1, s => scalar s

/-- The items of an array up to its end; the last may have a comma after it. -/
def items : Nat → Parser (List Value)
  | 0, _ => none
  | _ + 1, ']' :: rest => some ([], rest)
  | fuel + 1, s => do
    let (v, rest) ← value fuel s
    match skipAll rest with
    | ',' :: rest =>
      let (vs, rest) ← items fuel (skipAll rest)
      return (v :: vs, rest)
    | ']' :: rest => return ([v], rest)
    | _ => none

/-- The entries of an inline table up to its end; the last may have a comma after it. -/
def entries : Nat → Parser (List (KeyPath × Value))
  | 0, _ => none
  | _ + 1, '\x7d' :: rest => some ([], rest)
  | fuel + 1, s => do
    let (k, rest) ← keyPath (s.length + 1) s
    match rest with
    | '=' :: rest =>
      let (v, rest) ← value fuel (skipBlanks rest)
      match skipAll rest with
      | ',' :: rest =>
        let (es, rest) ← entries fuel (skipAll rest)
        return ((k, v) :: es, rest)
      | '\x7d' :: rest => return ([(k, v)], rest)
      | _ => none
    | _ => none

end

/-! ## Statements -/

def statement : Parser Statement := fun s => do
  let path := keyPath (s.length + 1)
  match s with
  | '[' :: '[' :: rest =>
    match ← path rest with
    | (p, ']' :: ']' :: rest) => return (.element p, rest)
    | _ => none
  | '[' :: rest =>
    match ← path rest with
    | (p, ']' :: rest) => return (.table p, rest)
    | _ => none
  | s =>
    match ← path s with
    | (k, '=' :: rest) =>
      let (v, rest) ← value (s.length + 1) (skipBlanks rest)
      return (.assign k v, rest)
    | _ => none

/-- A statement ends with its line. -/
def endsLine (s : List Char) : Bool :=
  match skipComment (skipBlanks s) with
  | [] => true
  | c :: _ => isNewline c

def statements : Nat → List Char → Option (List Statement)
  | 0, _ => some []
  | fuel + 1, s =>
    match skipAll s with
    | [] => some []
    | s => do
      let (first, rest) ← statement s
      if endsLine rest then return first :: (← statements fuel rest) else none

/-- No control characters but tabs and newlines; a carriage return stands before a newline. -/
def charactersFit : List Char → Bool
  | [] => true
  | '\r' :: rest => rest.head? == some '\n' && charactersFit rest
  | c :: rest => (c == '\t' || c == '\n' || (c.toNat ≥ 0x20 && c.toNat != 0x7f)) && charactersFit rest

/-- The statements of a text, which may start with a byte order mark. -/
def parse (text : String) : Option (List Statement) :=
  let s := match text.toList with
    | '\ufeff' :: rest => rest
    | s => s
  if charactersFit s then statements (s.length + 1) s else none

end RubyMachine.Toml
