import RubyMachine.Number.Word
import RubyMachine.Toml.Text

/-! Numbers and dates of TOML, which are recognised by their characters first and checked afterwards. -/

namespace RubyMachine.Toml

/-! ## Underscores and zeros -/

def isHexDigit (c : Char) : Bool := (Bytes.hexValue? c).isSome

/-- Each underscore stands between digits, and a digit is last. -/
def underscoresFit (s : List Char) : Bool :=
  let (fits, last) := s.foldl (fun (fits, last) c => (fits && (c != '_' || last), isHexDigit c)) (true, false)
  fits && last

/-- A zero that more digits follow, other than as the start of a base. -/
def hasLeadingZero : List Char → Bool
  | '0' :: c :: _ => c != 'b' && c != 'o' && c != 'x'
  | sign :: '0' :: _ :: _ => sign == '-' || sign == '+'
  | _ => false

/-! ## Integers -/

def digitsValue? (base : Nat) (s : List Char) : Option Nat :=
  if s.isEmpty then none
  else s.foldlM (fun n c => do
    let d ← Bytes.hexValue? c
    if d < base then some (base * n + d) else none) 0

/-- The number that digits with a sign or a base denote. -/
def signed? (s : List Char) : Option Int :=
  match s with
  | '+' :: ds => (digitsValue? 10 ds).map Int.ofNat
  | '-' :: ds => (digitsValue? 10 ds).map fun n => -(n : Int)
  | '0' :: 'x' :: ds => (digitsValue? 16 ds).map Int.ofNat
  | '0' :: 'o' :: ds => (digitsValue? 8 ds).map Int.ofNat
  | '0' :: 'b' :: ds => (digitsValue? 2 ds).map Int.ofNat
  | ds => (digitsValue? 10 ds).map Int.ofNat

/-- A base has a digit right after it. -/
def baseFits : List Char → Bool
  | '0' :: 'b' :: c :: _ => c != '_'
  | _ => true

/-- Integers are of 64 bits. -/
def integer? (s : List Char) : Option Int := do
  if !underscoresFit s || !baseFits s || hasLeadingZero s then none
  let n ← signed? (s.filter (· != '_'))
  if Number.fitsWord n then some n else none

/-! ## Floats -/

/-- The parts of a float between its point and the mark of its exponent; empty ones do not count. -/
def floatParts (s : List Char) : List (List Char) :=
  (s.splitBy fun a b => (a == '.' || a == 'e' || a == 'E') == (b == '.' || b == 'e' || b == 'E')).filter
    fun part => part.all fun c => c != '.' && c != 'e' && c != 'E'

/-- Every point has a digit after it. -/
def pointsFit : List Char → Bool
  | [] => true
  | ['.'] => false
  | '.' :: c :: rest => c.isDigit && pointsFit (c :: rest)
  | _ :: rest => pointsFit rest

/-- A decimal as an integer and a power of ten. -/
def decimal? (s : List Char) : Option (Nat × Int) := do
  let s := match s with
    | '+' :: r => r
    | '-' :: r => r
    | r => r
  let whole := s.takeWhile Char.isDigit
  let rest := s.drop whole.length
  let (part, rest) := match rest with
    | '.' :: r => (r.takeWhile Char.isDigit, r.dropWhile Char.isDigit)
    | r => ([], r)
  let m ← digitsValue? 10 (whole ++ part)
  let e ← match rest with
    | [] => some 0
    | mark :: r =>
      if mark != 'e' && mark != 'E' then none
      else match r with
        | '+' :: ds => (digitsValue? 10 ds).map Int.ofNat
        | '-' :: ds => (digitsValue? 10 ds).map fun n => -(n : Int)
        | ds => (digitsValue? 10 ds).map Int.ofNat
  return (m, e - part.length)

/-- The decimal rounds to a finite double: it is below the middle between the largest one and the next
power of two. -/
def isFinite (m : Nat) (e : Int) : Bool :=
  m == 0 || e < 400 && 2 * m * Nat.pow 10 e.toNat < (1 <<< 1025 - 1 <<< 971) * Nat.pow 10 (-e).toNat

def isFloat (s : List Char) : Bool :=
  (floatParts s).all underscoresFit && !((floatParts s).head?.map hasLeadingZero).getD false && pointsFit s &&
    match decimal? (s.filter (· != '_')) with
    | some (m, e) => isFinite m (max e (-s.length))
    | none => false

/-! ## Dates and times -/

def twoDigits (s : List Char) : Option (Nat × List Char) := do
  let n ← digitsValue? 10 (s.take 2)
  if s.length < 2 then none else some (n, s.drop 2)

def expect (c : Char) : List Char → Option (List Char)
  | d :: rest => if c = d then some rest else none
  | [] => none

def isLeapYear (y : Nat) : Bool := y % 4 == 0 && (y % 100 != 0 || y % 400 == 0)

def daysIn (year month : Nat) : Nat :=
  if month = 2 then (if isLeapYear year then 29 else 28)
  else if month = 4 ∨ month = 6 ∨ month = 9 ∨ month = 11 then 30
  else 31

def dateText (s : List Char) : Option (List Char) := do
  if s.length < 4 then none
  let year ← digitsValue? 10 (s.take 4)
  let (month, s) ← twoDigits (← expect '-' (s.drop 4))
  let (day, s) ← twoDigits (← expect '-' s)
  if 1 ≤ month ∧ month ≤ 12 ∧ 1 ≤ day ∧ day ≤ daysIn year month then some s else none

/-- Seconds may be left out, and may have a fraction. -/
def timeText (s : List Char) : Option (List Char) := do
  let (hour, s) ← twoDigits s
  let (minute, s) ← twoDigits (← expect ':' s)
  if 24 ≤ hour ∨ 60 ≤ minute then none
  match s with
  | ':' :: r =>
    let (second, r) ← twoDigits r
    if 60 ≤ second then none
    match r with
    | '.' :: d :: t => if d.isDigit then some (t.dropWhile Char.isDigit) else none
    | r => some r
  | s => some s

def offsetText (s : List Char) : Option (List Char) := do
  match s with
  | 'Z' :: r => some r
  | sign :: r =>
    if sign != '+' && sign != '-' then none
    let (hours, r) ← twoDigits r
    let (minutes, r) ← twoDigits (← expect ':' r)
    if 24 < hours ∨ 60 < minutes then none else some r
  | [] => none

/-- A date, a time, or both, the two joined by a letter or a blank; with both there may be an offset. -/
def isDateTime (s : List Char) : Bool :=
  let s := s.map fun c => if c == 't' || c == ' ' then 'T' else if c == 'z' then 'Z' else c
  let ends (o : Option (List Char)) : Bool := o == some []
  match dateText s with
  | some [] => true
  | some ('T' :: r) => ends (timeText r) || ends (do offsetText (← timeText r))
  | some _ => false
  | none => ends (timeText s)

end RubyMachine.Toml
