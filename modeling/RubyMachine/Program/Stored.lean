import RubyMachine.Bytes.Sha256
import RubyMachine.Cbor.Typed
import RubyMachine.Program.Basic

/-! The stored form of programs: records with numbered fields. Most fields are left out when they hold
what they start with. -/

namespace RubyMachine.Program

open Cbor (Item Typed)
open Cbor.Typed (field)

/-! ## Writing -/

/-- The entry of a field that is always written. -/
def always (n : Nat) (x : Item) : List (Item × Item) := [(.ofNat n, x)]

/-- The entry of a field that is left out when it is `absent`. -/
def sometimes (n : Nat) (absent : Bool) (x : Item) : List (Item × Item) := if absent then [] else always n x

def intField (n : Nat) (v : Int) : List (Item × Item) := sometimes n (v == 0) (.ofInt v)

def boolField (n : Nat) (v : Bool) : List (Item × Item) := sometimes n (!v) (.ofBool v)

def textField (n : Nat) (v : String) : List (Item × Item) := sometimes n (v == "") (.ofString v)

def slotField (n : Nat) (v : Option UInt32) : List (Item × Item) :=
  sometimes n v.isNone (.ofNat (v.getD 0).toNat)

def listField {α : Type} (n : Nat) (f : α → Item) (l : List α) : List (Item × Item) :=
  sometimes n l.isEmpty (.array (l.map f))

/-- A list that is written even if it is empty, and as null if it was never given. -/
def listItem {α : Type} (f : α → Item) : Option (List α) → Item
  | some l => .array (l.map f)
  | none => .null

def Keyword.toItem (k : Keyword) : Item :=
  .map (always 1 (.ofNat k.name.toNat) ++ always 2 (.ofNat k.slot.toNat))

def Params.toItem (p : Params) : Item :=
  .map (intField 1 p.req ++ intField 2 p.opt ++ intField 3 p.rest.toNat ++ intField 4 p.post ++
    listField 5 Keyword.toItem (p.keywords.getD []) ++ boolField 6 p.kwRest ++ boolField 7 p.block ++
    boolField 8 p.delegate)

def Handler.toItem (h : Handler) : Item :=
  .map (always 1 (.ofNat h.kind.toNat) ++ always 2 (.ofInt h.start) ++ always 3 (.ofInt h.stop) ++
    always 4 (.ofInt h.dest))

def SourceLine.toItem (l : SourceLine) : Item :=
  .map (always 1 (.ofInt l.offset) ++ always 2 (.ofInt l.line))

/-- Both zeros count as no float. -/
def isZeroFloat (bits : UInt64) : Bool := bits &&& 0x7fffffffffffffff == 0

mutual

def Literal.toItem : Literal → Item
  | ⟨kind, int, float, text, ident, elems⟩ =>
    .map (always 1 (.ofNat kind.toNat) ++ intField 2 int ++ sometimes 3 (isZeroFloat float) (.float float) ++
      textField 4 text ++ intField 5 ident.toNat ++ sometimes 6 elems.isEmpty (.array (literalItems elems)))

def literalItems : List Literal → List Item
  | [] => []
  | l :: ls => l.toItem :: literalItems ls

end

def Sequence.toItem (s : Sequence) : Item :=
  .map (always 1 (.ofNat s.name.toNat) ++ always 2 (.ofNat s.kind.toNat) ++
    always 3 ((s.code.map Item.bytes).getD .null) ++ always 4 s.params.toItem ++
    listField 5 (fun i => .ofNat i.toNat) (s.locals.getD []) ++ slotField 6 s.kwRestSlot ++
    slotField 7 s.blockSlot ++ slotField 8 s.delegateSlot ++ listField 9 Literal.toItem s.consts ++
    intField 10 s.methodSites ++ intField 11 s.constSites ++
    listField 12 Handler.toItem (s.handlers.getD []) ++ listField 13 SourceLine.toItem (s.lines.getD []) ++
    textField 14 s.path ++ intField 15 s.slots)

def toItem (p : Program) : Item :=
  .map (always 1 (.ofInt p.version) ++ always 2 (listItem .ofString p.idents) ++
    always 3 (listItem Sequence.toItem p.sequences) ++ always 4 (.ofNat p.entry.toNat) ++ textField 5 p.source)

/-- The bytes a program is stored as. Equal programs give equal bytes. -/
def toBytes (p : Program) : Bytes := p.toItem.encode.toArray

def digest (p : Program) : Bytes := Bytes.sha256 p.toBytes

/-! ## Reading -/

def Keyword.typed : Typed Keyword := Typed.record fun fs => do
  return { name := ← field fs 1 Typed.uint32, slot := ← field fs 2 Typed.uint32 }

def Params.typed : Typed Params := Typed.record fun fs => do
  return {
    req := ← field fs 1 Typed.int64, opt := ← field fs 2 Typed.int64, rest := ← field fs 3 Typed.uint8
    post := ← field fs 4 Typed.int64, keywords := ← field fs 5 (Typed.list Keyword.typed)
    kwRest := ← field fs 6 Typed.bool, block := ← field fs 7 Typed.bool, delegate := ← field fs 8 Typed.bool }

def Handler.typed : Typed Handler := Typed.record fun fs => do
  return {
    kind := ← field fs 1 Typed.uint8, start := ← field fs 2 Typed.int64, stop := ← field fs 3 Typed.int64
    dest := ← field fs 4 Typed.int64 }

def SourceLine.typed : Typed SourceLine := Typed.record fun fs => do
  return { offset := ← field fs 1 Typed.int64, line := ← field fs 2 Typed.int64 }

/-- A literal inside which literals are nested at most `depth` deep. -/
def Literal.typed : Nat → Typed Literal
  | 0 => fun _ => .error .tooDeep
  | depth + 1 => Typed.record fun fs => do
    return {
      kind := ← field fs 1 Typed.uint8, int := ← field fs 2 Typed.int64, float := ← field fs 3 Typed.float
      text := ← field fs 4 Typed.text, ident := ← field fs 5 Typed.uint32
      elems := (← field fs 6 (Typed.list (Literal.typed depth))).getD [] }

def Sequence.typed : Typed Sequence := Typed.record fun fs => do
  return {
    name := ← field fs 1 Typed.uint32, kind := ← field fs 2 Typed.uint8, code := ← field fs 3 Typed.bytes
    params := ← field fs 4 Params.typed, locals := ← field fs 5 (Typed.list Typed.uint32)
    kwRestSlot := ← field fs 6 (Typed.optional Typed.uint32)
    blockSlot := ← field fs 7 (Typed.optional Typed.uint32)
    delegateSlot := ← field fs 8 (Typed.optional Typed.uint32)
    consts := (← field fs 9 (Typed.list (Literal.typed Cbor.maxDepth))).getD []
    methodSites := ← field fs 10 Typed.int64, constSites := ← field fs 11 Typed.int64
    handlers := ← field fs 12 (Typed.list Handler.typed), lines := ← field fs 13 (Typed.list SourceLine.typed)
    path := ← field fs 14 Typed.text, slots := ← field fs 15 Typed.int64 }

def typed : Typed Program := Typed.record fun fs => do
  return {
    version := ← field fs 1 Typed.int64, idents := ← field fs 2 (Typed.list Typed.text)
    sequences := ← field fs 3 (Typed.list Sequence.typed), entry := ← field fs 4 Typed.uint32
    source := ← field fs 5 Typed.text }

/-- The program that bytes hold. -/
def ofBytes (b : Bytes) : Except Error Program :=
  match Cbor.decode b >>= typed with
  | .error e => .error (.format e)
  | .ok p => if p.version = formatVersion then .ok p else .error (.version p.version)

end RubyMachine.Program
