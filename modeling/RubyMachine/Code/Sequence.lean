import RubyMachine.Ident
import RubyMachine.Number.Word

/-! Instruction sequences: bytecode with the tables needed to run it. -/

namespace RubyMachine.Code

/-- What a sequence was compiled from. -/
inductive SequenceKind where
  /-- A top level. -/
  | other
  | method
  /-- The body of a class or module. -/
  | classBody
  | block
  /-- A number without a meaning; it runs like a top level. -/
  | unknown (code : UInt8)
  deriving DecidableEq, Inhabited

namespace SequenceKind

def ofCode : UInt8 → SequenceKind
  | 0 => .other
  | 1 => .method
  | 2 => .classBody
  | 3 => .block
  | n => .unknown n

def code : SequenceKind → UInt8
  | .other => 0
  | .method => 1
  | .classBody => 2
  | .block => 3
  | .unknown n => n

def text : SequenceKind → String
  | .method => "method"
  | .classBody => "class"
  | .block => "block"
  | _ => "other"

/-- The kind that is called so. -/
def ofText (s : String) : SequenceKind := ([method, classBody, block].find? fun k => k.text == s).getD .other

end SequenceKind

/-- Whether surplus arguments are kept in a slot, dropped, or refused. -/
inductive RestKind where
  | none
  | named
  | anonymous
  | unknown (code : UInt8)
  deriving DecidableEq, Inhabited

namespace RestKind

def ofCode : UInt8 → RestKind
  | 0 => .none
  | 1 => .named
  | 2 => .anonymous
  | n => .unknown n

def code : RestKind → UInt8
  | .none => 0
  | .named => 1
  | .anonymous => 2
  | .unknown n => n

end RestKind

structure Keyword where
  name : Ident
  slot : UInt32
  deriving DecidableEq

/-- The parameters of a method or block. Slots follow the order required, optional, rest, post. -/
structure Params where
  req : Int := 0
  opt : Int := 0
  rest : RestKind := .none
  post : Int := 0
  keywords : List Keyword := []
  kwRest : Bool := false
  block : Bool := false
  delegate : Bool := false

namespace Params

def hasKeywords (p : Params) : Bool := !p.keywords.isEmpty || p.kwRest

/-- Only required positional parameters. -/
def isSimple (p : Params) : Bool :=
  p.opt == 0 && p.rest == .none && p.post == 0 && p.keywords.isEmpty && !p.kwRest && !p.block &&
    !p.delegate

def restSlots (p : Params) : Int := if p.rest = .named then 1 else 0

/-- Counts are added as words of 64 bits. -/
def sum (a b : Int) : Int := Number.wrap (a + b)

/-- The fewest positional arguments. -/
def least (p : Params) : Int := sum p.req p.post

/-- The parameters before the rest. -/
def positional (p : Params) : Int := sum p.req p.opt

/-- A block with these parameters spreads a single Array over them. -/
def spreads (p : Params) : Bool :=
  p.least > 1 || (p.least == 1 && (p.opt > 0 || p.rest != .none))

def keywordSlot? (p : Params) (name : Ident) : Option UInt32 :=
  (p.keywords.find? fun k => k.name == name).map Keyword.slot

end Params

inductive HandlerKind where
  | rescue
  | ensure
  | retry
  | unknown (code : UInt8)
  deriving DecidableEq

namespace HandlerKind

def ofCode : UInt8 → HandlerKind
  | 0 => .rescue
  | 1 => .ensure
  | 2 => .retry
  | n => .unknown n

def code : HandlerKind → UInt8
  | .rescue => 0
  | .ensure => 1
  | .retry => 2
  | .unknown n => n

def text : HandlerKind → String
  | .rescue => "rescue"
  | .ensure => "ensure"
  | .retry => "retry"
  | .unknown n => "kind(" ++ toString n.toNat ++ ")"

end HandlerKind

/-- Failures of the instructions from `start` to before `stop` go on at `dest`. -/
structure Handler where
  kind : HandlerKind
  start : Int
  stop : Int
  dest : Int

/-- Code from `offset` on comes from a source line. -/
structure SourceLine where
  offset : Int
  line : Int

structure Sequence where
  name : Ident
  kind : SequenceKind
  code : Bytes := #[]
  params : Params := {}
  /-- Names of the local slots, in slot order. -/
  locals : Array Ident := #[]
  kwRestSlot : Option UInt32 := none
  blockSlot : Option UInt32 := none
  delegateSlot : Option UInt32 := none
  /-- The number of local slots a caller asked for; there are never fewer than names. -/
  slots : Int := 0
  /-- The literal pool. -/
  consts : Array Value := #[]
  methodSites : Int := 0
  constSites : Int := 0
  handlers : List Handler := []
  lines : List SourceLine := []
  path : String := ""
  deriving Inhabited

namespace Sequence

def slotCount (s : Sequence) : Nat := max s.slots.toNat s.locals.size

def slotOf? (s : Sequence) (name : Ident) : Option Nat := s.locals.findIdx? (· == name)

/-- The line of the last entry at or before `pc`, reading the table up to the first later offset. -/
def lineAt (s : Sequence) (pc : Int) : Int :=
  ((s.lines.takeWhile fun l => l.offset ≤ pc).getLast?.map SourceLine.line).getD 0

end Sequence

end RubyMachine.Code
