import RubyMachine.Decimal.Layout
import RubyMachine.Number.Word

/-! Spans of time in nanoseconds, as words of 64 bits with sign. What goes beyond is cut to the longest
span. -/

namespace RubyMachine

structure Duration where
  nanoseconds : Int := 0
  deriving DecidableEq

namespace Duration

def longest : Int := Number.maxWord

def ofNanoseconds (n : Int) : Duration := ⟨max (-longest - 1) (min longest n)⟩

/-- The span from one moment to another, both in nanoseconds. -/
def between (start stop : Int) : Duration := ofNanoseconds (stop - start)

def microsecond : Nat := 1000
def millisecond : Nat := 1000000
def second : Nat := 1000000000

/-- The nearest multiple of `unit`; from the middle it goes away from zero. -/
def round (d : Duration) (unit : Nat) : Duration :=
  let n := d.nanoseconds.natAbs
  let r := n % unit
  let m : Int := if 2 * r < unit then n - r else n + unit - r
  ofNanoseconds (if d.nanoseconds < 0 then -m else m)

/-- `n / 10 ^ places`, without zeros at the end. -/
def decimal (n places : Nat) : String :=
  let unit := Nat.pow 10 places
  let part := (Decimal.padLeft places '0' (toString (n % unit))).toList
  let kept := (part.reverse.dropWhile (· == '0')).reverse
  let whole := toString (n / unit)
  if n % unit = 0 then whole else whole ++ "." ++ String.ofList kept

/-- Spans below a second are written in their largest unit, the others in hours, minutes and seconds. -/
def magnitude (n : Nat) : String :=
  if n = 0 then "0s"
  else if n < microsecond then toString n ++ "ns"
  else if n < millisecond then decimal n 3 ++ "µs"
  else if n < second then decimal n 6 ++ "ms"
  else
    let minutes := n / second / 60
    let seconds := decimal (n % (60 * second)) 9 ++ "s"
    if minutes = 0 then seconds
    else if minutes < 60 then toString minutes ++ "m" ++ seconds
    else toString (minutes / 60) ++ "h" ++ toString (minutes % 60) ++ "m" ++ seconds

def text (d : Duration) : String :=
  (if d.nanoseconds < 0 then "-" else "") ++ magnitude d.nanoseconds.natAbs

end Duration

end RubyMachine
