import RubyMachine.Machine.Classes
import RubyMachine.Program.Basic

/-! Putting a program into a machine: its names and functions get the numbers of the machine. Nothing
is added to the functions unless every sequence can be. -/

namespace RubyMachine.Program

/-- Loading allocates the literals of a sequence before all of it is checked. -/
abbrev Loading := ExceptT Flaw Exec

namespace Loading

def refuse {α : Type} (e : Flaw) : Loading α := throw e

def check {α : Type} (x : Except Flaw α) : Loading α := ExceptT.mk (pure x)

def identOf (names : Array Ident) (n : UInt32) : Except Flaw Ident :=
  match names[n.toNat]? with
  | some i => .ok i
  | none => .error (.ident n)

/-- Code with its names renumbered. Functions keep the numbers of the program, which has `count`
sequences. An instruction that cannot be read is the first thing to be reported, then the first
number out of range. -/
def relocate (names : Array Ident) (count : Nat) (code : Bytes) : Except Flaw Bytes :=
  let r : Code.Relocator (StateM (Option Flaw)) := {
    ident := some fun i =>
      match identOf names i.id with
      | .ok j => return j
      | .error e => do
        modify (·.or (some e))
        return .none
    fn := some fun f => do
      if f.id.toNat > count then modify (·.or (some (.fn f.id)))
      return f }
  match (r.apply code).run none with
  | ((_, some e), _) => .error (.code e)
  | ((_, none), some e) => .error e
  | ((code, none), none) => .ok code

def slot (locals : List Ident) : Option UInt32 → Except Flaw (Option UInt32)
  | none => .ok none
  | some n => if n.toNat < locals.length then .ok (some n) else .error (.slot n)

/-- All of a sequence but its literals and handlers. -/
def outline (names : Array Ident) (count : Nat) (s : Sequence) : Except Flaw Code.Sequence := do
  let name ← identOf names s.name
  let code ← relocate names count (s.code.getD #[])
  let keywords ← (s.params.keywords.getD []).mapM fun k =>
    return { name := ← identOf names k.name, slot := k.slot : Code.Keyword }
  let locals ← (s.locals.getD []).mapM (identOf names)
  return {
    name, code
    kind := .ofCode s.kind
    params := {
      req := s.params.req, opt := s.params.opt, rest := .ofCode s.params.rest, post := s.params.post
      keywords, kwRest := s.params.kwRest, block := s.params.block, delegate := s.params.delegate }
    locals := locals.toArray
    kwRestSlot := ← slot locals s.kwRestSlot
    blockSlot := ← slot locals s.blockSlot
    delegateSlot := ← slot locals s.delegateSlot
    slots := s.slots, methodSites := s.methodSites, constSites := s.constSites
    lines := (s.lines.getD []).map fun l => ⟨l.offset, l.line⟩
    path := s.path }

mutual

def literal (names : Array Ident) : Literal → Loading Value
  | ⟨kind, int, float, text, ident, elems⟩ => do
    if kind = Literal.nilKind then return .nil
    else if kind = Literal.trueKind then return .true
    else if kind = Literal.falseKind then return .false
    else if kind = Literal.intKind then
      match Value.ofInt? int with
      | some v => return v
      | none => refuse (.integer int)
    else if kind = Literal.floatKind then return .ofFloatBits float
    else if kind = Literal.symbolKind then return .ofSymbol (← check (identOf names ident))
    else if kind = Literal.stringKind then Exec.newString text
    else if kind = Literal.arrayKind then
      let vs ← literals names elems
      Exec.newArray vs
    else refuse (.literalKind kind)

def literals (names : Array Ident) : List Literal → Loading (List Value)
  | [] => return []
  | l :: ls => do
    let v ← literal names l
    return v :: (← literals names ls)

end

def handler (size : Nat) (h : Handler) : Except Flaw Code.Handler :=
  if h.start < 0 ∨ h.stop > size ∨ h.dest < 0 ∨ h.dest > size then .error (.handler h)
  else .ok ⟨.ofCode h.kind, h.start, h.stop, h.dest⟩

def sequence (names : Array Ident) (count : Nat) (s : Sequence) : Loading Code.Sequence := do
  let q ← check (outline names count s)
  let consts ← literals names s.consts
  let handlers ← check ((s.handlers.getD []).mapM (handler q.code.size))
  return { q with consts := consts.toArray, handlers }

/-- The sequences with the first flaw, which is told with its index. -/
def sequences (names : Array Ident) (count : Nat) : Nat → List Sequence → Exec (Except Error (List Code.Sequence))
  | _, [] => return .ok []
  | i, s :: rest => do
    match ← (sequence names count s).run with
    | .error e => return .error (.sequence i e)
    | .ok q => return (← sequences names count (i + 1) rest).map (q :: ·)

/-- Takes the functions that were added for the numbers within the program. These were checked before; one that
stands for no function is a fault. -/
def linker (fns : Array FnId) : Code.Relocator (Except Defect) where
  ident := none
  fn := some fun f =>
    match fns[f.id.toNat - 1]? with
    | some g => return g
    | none => throw .fault

/-- Puts the functions that were added into the code of the sequences, whose own functions stand in the
table from index `i` on. Of code that cannot be walked, the part before the flaw is changed. -/
def link (fns : Array FnId) : Nat → List Code.Sequence → Exec (Except Error Unit)
  | _, [] => return .ok ()
  | i, q :: qs => do
    let (code, flaw) ← (linker fns).apply q.code
    modify fun m => { m with functions := ⟨m.functions.functions.modify i (·.withCode code)⟩ }
    match flaw with
    | some e => return .error (.link e)
    | none => link fns (i + 1) qs

end Loading

/-- Adds every sequence of a program and gives their functions, in order. The names of the program are
known to the machine from then on, even if a sequence is refused. -/
def loadAll (p : Program) : Exec (Except Error (List FnId)) := do
  let stored := p.sequences.getD []
  if p.entry = 0 ∨ p.entry.toNat > stored.length then return .error (.entry p.entry stored.length)
  let names ← (p.idents.getD []).mapM Exec.intern
  match ← Loading.sequences names.toArray stored.length 1 stored with
  | .error e => return .error e
  | .ok qs =>
    let there := (← get).functions.size
    let fns ← qs.mapM Exec.addSequence
    return (← Loading.link fns.toArray there qs).map fun _ => fns

/-- Adds every sequence of a program and gives the function to start with. -/
def load (p : Program) : Exec (Except Error FnId) := do
  return (← p.loadAll).map fun fns => fns.getD (p.entry.toNat - 1) ⟨0⟩

end RubyMachine.Program
