import RubyMachine.Machine.Inspect
import RubyMachine.Program.Basic

/-! Taking a program out of a machine: the code of a function and of all functions it refers to,
numbered in the order in which they are met. -/

namespace RubyMachine.Program

/-- The names and functions met so far; their indices are their numbers in the program, the first
function having number 1. -/
structure Numbering where
  idents : Array Ident := #[.none]
  fns : Array FnId := #[]
  /-- The first function met that is not bytecode. -/
  refused : Option FnId := none

/-- The work of capturing changes the numbering only. -/
abbrev Capture := StateT Numbering (ExceptT Error (Except Defect))

namespace Capture

variable (m : Machine)

def refuse {α : Type} (e : Error) : Capture α := throw e

def certain {α : Type} (x : Except Defect α) : Capture α := fun s => do
  let a ← x
  return (a, s)

def ident (i : Ident) : Capture UInt32 := modifyGet fun s =>
  match s.idents.findIdx? (· == i) with
  | some k => (UInt32.ofNat k, s)
  | none => (UInt32.ofNat s.idents.size, { s with idents := s.idents.push i })

def isBytecode (fn : FnId) : Bool :=
  match m.functions.find? fn with
  | some { body := .code _, .. } => true
  | _ => false

def fn (f : FnId) : Capture UInt32 := modifyGet fun s =>
  match s.fns.findIdx? (· == f) with
  | some k => (UInt32.ofNat (k + 1), s)
  | none =>
    if isBytecode m f then (UInt32.ofNat (s.fns.size + 1), { s with fns := s.fns.push f })
    else (0, { s with refused := s.refused.or (some f) })

/-- The stored form of a literal inside which arrays are nested at most `depth` deep. -/
def literal : Nat → Value → Capture Literal
  | 0, _ => certain (.error .fault)
  | depth + 1, v => do
    let refused : Capture Literal := do refuse (.literal (← certain (m.inspect v)))
    if v == .nil then return { kind := Literal.nilKind }
    else if v == .true then return { kind := Literal.trueKind }
    else if v == .false then return { kind := Literal.falseKind }
    else if v.isFixnum then return { kind := Literal.intKind, int := v.toInt }
    else if v.isFloat then return { kind := Literal.floatKind, float := v.bits }
    else if v.isSymbol then return { kind := Literal.symbolKind, ident := ← ident v.toSymbol }
    else if v.isRef then
      match ← certain (m.heap.read v.toRef) with
      | .string s => return { kind := Literal.stringKind, text := s }
      | .array elems =>
        let elems ← elems.toList.mapM (literal depth)
        return { kind := Literal.arrayKind, elems }
      | _ => refused
    else refused

def nonEmpty {α : Type} (l : List α) : Option (List α) := if l.isEmpty then none else some l

def sequence (q : Code.Sequence) : Capture Sequence := do
  let r : Code.Relocator Capture := {
    ident := some fun i => return ⟨← ident i⟩
    fn := some fun f => return ⟨← fn m f⟩ }
  let (code, stuck) ← r.apply q.code
  if let some e := stuck then refuse (.code (m.idents.name q.name) e)
  let name ← ident q.name
  let keywords ← q.params.keywords.mapM fun k => return { name := ← ident k.name, slot := k.slot : Keyword }
  let locals ← q.locals.toList.mapM ident
  let consts ← q.consts.toList.mapM (literal m (m.heap.pages.size * Heap.pageCells + 2))
  return {
    name, consts
    kind := q.kind.code
    code := if code.isEmpty then none else some code
    params := {
      req := q.params.req, opt := q.params.opt, rest := q.params.rest.code, post := q.params.post
      keywords := nonEmpty keywords
      kwRest := q.params.kwRest, block := q.params.block, delegate := q.params.delegate }
    locals := nonEmpty locals
    kwRestSlot := q.kwRestSlot, blockSlot := q.blockSlot, delegateSlot := q.delegateSlot
    methodSites := q.methodSites, constSites := q.constSites
    handlers := nonEmpty (q.handlers.map fun h => ⟨h.kind.code, h.start, h.stop, h.dest⟩)
    lines := nonEmpty (q.lines.map fun l => ⟨l.offset, l.line⟩)
    path := q.path, slots := q.slotCount }

/-- The sequences of the functions with numbers above `done`, and of those met on the way, until one
that is not bytecode turns up. -/
def sequences : Nat → Nat → Capture (List Sequence)
  | 0, _ => return []
  | fuel + 1, done => do
    let s ← get
    if s.refused.isSome then return []
    match s.fns[done]? with
    | none => return []
    | some f =>
      let first ← sequence m (← certain (m.functions.sequence f))
      return first :: (← sequences fuel (done + 1))

end Capture

/-- The program that starts at a function. A function is taken at most once, so there are no more
sequences than functions. -/
def capture (m : Machine) (entry : FnId) : ExceptT Error (Except Defect) Program := do
  let work : Capture (UInt32 × List Sequence) := do
    let entry ← Capture.fn m entry
    return (entry, ← Capture.sequences m m.functions.size 0)
  let ((entry, sequences), s) ← work.run {}
  if let some f := s.refused then throw (.notBytecode f)
  return {
    version := formatVersion
    idents := some (s.idents.toList.map m.idents.name)
    sequences := some sequences
    entry
    source := (sequences.head?.map Sequence.path).getD "" }

end RubyMachine.Program
