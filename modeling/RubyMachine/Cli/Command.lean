import RubyMachine.Cli.Flags
import RubyMachine.Code.Listing
import RubyMachine.Machine.Boot
import RubyMachine.Machine.Step
import RubyMachine.Manifest
import RubyMachine.Number.Word
import RubyMachine.Program.Load
import RubyMachine.Program.Stored
import RubyMachine.Run.Store
import RubyMachine.Time.Calendar

/-! The command line: running and listing programs, and looking at recorded runs. -/

namespace RubyMachine.Cli

/-- What a command leaves behind. -/
structure Result where
  code : Nat := 0
  out : String := ""
  err : String := ""

/-- What a command needs of the world. -/
structure World (m : Type → Type) where
  files : Files m
  /-- The moment, in nanoseconds. -/
  now : m Int
  newId : m Uuid

/-- The manifest with the options of the command line applied. -/
structure Config where
  project : String := ""
  entry : String := ""
  statsFile : String := ""
  options : Options := {}

/-- A command ends early with what it has to say. -/
abbrev Command (m : Type → Type) := ExceptT Result m

section

variable {m : Type → Type} [Monad m]

def fatal {α : Type} (text : String) : Command m α := throw { code := 1, err := "Error: " ++ text ++ "\n" }

def config (w : World m) (flags : Flags) : Command m Config := do
  match ← (Manifest.find w.files flags.dir : m (Except Manifest.Error (Option Manifest))) with
  | .error e => fatal e.message
  | .ok found =>
    let manifest := found.getD {}
    return {
      project := manifest.name
      entry := manifest.entryPath
      statsFile := flags.statsFile.getD manifest.statsPath
      options := flags.apply manifest.options }

/-! ## Programs -/

/-- The program named by the arguments, or else by the manifest. -/
def programPath (c : Config) : List String → Command m String
  | path :: _ => return path
  | [] => if c.entry = "" then fatal "no unit given and no [project].entry in garnet.toml" else return c.entry

def readProgram (w : World m) (path : String) : Command m Program := do
  match ← w.files.read path with
  | .error e => fatal ("wire: read " ++ path ++ ": " ++ e.message)
  | .ok bytes =>
    match Program.ofBytes bytes with
    | .error e => fatal (path ++ ": " ++ e.message)
    | .ok p => return p

/-- A defect ends the process, after what was written so far. -/
def crash {α : Type} (out : String) (d : Defect) : Command m α := throw { code := 2, out, err := "panic: " ++ d.message ++ "\n" }

/-- Does something on a machine that may be refused. -/
def onMachine {α : Type} (x : Exec (Except Program.Error α)) (machine : Machine) : Command m (α × Machine) :=
  match x machine with
  | .error d machine => crash machine.output d
  | .ok (.error e) _ => fatal e.message
  | .ok (.ok a) machine => return (a, machine)

/-! ## Running -/

/-- More steps than any run takes. -/
def maxSteps : Nat := 1 <<< 62

def runTop (fn : FnId) : Exec (Except Failure Value) := do
  match ← Exec.run maxSteps (← Exec.startTop fn) with
  | .done r => return r
  | _ => return .ok .nil

/-- The file of a store. A question mark and what follows it are options of the store, and the path to
the file is taken as text. -/
def storeFile (path : String) : String :=
  match path.splitOn "?" with
  | "" :: _ => Path.clean path
  | parts => Path.clean (parts.headD "")

/-- Opens the store at a path and makes the directory for it. -/
def openStore (w : World m) (path : String) : m (Except String RunStore) := do
  let dir := Path.directory path
  match ← w.files.makeDirectory dir with
  | .error e => return .error ("creating " ++ dir ++ ": " ++ e.message)
  | .ok _ =>
    match ← w.files.read (storeFile path) with
    | .error ⟨_, _, .missing⟩ => return .ok {}
    | .error _ => return .error "setting busy timeout: unable to open database file (14)"
    | .ok bytes =>
      match RunStore.ofBytes? bytes with
      | some s => return .ok s
      | none => return .error "creating tables: file is not a database (26)"

/-- Adds a run to the store at a path, and tells what went wrong. -/
def saveRun (w : World m) (path : String) (r : Run) : m (Option String) := do
  match ← openStore w path with
  | .error e => return some e
  | .ok s =>
    match s.save? r with
    | none => return some "saving run"
    | some s =>
      match ← w.files.write (storeFile path) s.toBytes with
      | .error e => return some ("saving run: " ++ e.message)
      | .ok _ => return none

/-- A small integer that a program gives is its exit code. -/
def exitCode (v : Value) : Nat :=
  if v.isFixnum ∧ 0 ≤ v.toInt ∧ v.toInt < 256 then v.toInt.toNat else 0

def run (w : World m) (c : Config) (printStats : Bool) (args : List String) : Command m Result := do
  let path ← programPath c args
  let p ← readProgram w path
  let machine := Machine.new c.options
  let recorder := (Recorder.start machine (← w.newId) c.project (← w.now)).setUnit path p.digest
  let (entry, machine) ← onMachine p.load machine
  match runTop entry machine with
  | .error d machine => crash machine.output d
  | .ok result machine =>
    let failure := match result with
      | .ok _ => none
      | .error f => some f.text
    let record := (recorder.finish machine failure (← w.now)).run
    let warning ← if c.statsFile = "" then pure none else (saveRun w c.statsFile record : m (Option String))
    let notes := (if printStats then record.summary else "") ++
      (warning.map fun s => "Warning: " ++ s ++ "\n").getD ""
    match result with
    | .ok v => return { code := exitCode v, out := machine.output, err := notes }
    | .error f => return { code := 1, out := machine.output, err := notes ++ path ++ ": " ++ f.text ++ "\n" }

/-! ## Listing -/

/-- What stands above the code of a sequence: parameters, names, literals and handlers. -/
def describe (machine : Machine) (fn : FnId) (isEntry : Bool) (q : Code.Sequence) : Except Defect String := do
  let nameOf := machine.idents.name
  let name := if nameOf q.name = "" then "<" ++ q.kind.text ++ ">" else nameOf q.name
  let p := q.params
  let locals := q.locals.toList.map fun i => " " ++ nameOf i
  let consts ← q.consts.toList.mapM machine.inspect
  let code ← Code.Listing.text (some machine.idents) q.code
  return "== " ++ name ++ " #" ++ toString fn.id.toNat ++ (if isEntry then " (entry)" else "") ++ "\n" ++
    "   params: req=" ++ toString p.req ++ " opt=" ++ toString p.opt ++ " rest=" ++ toString p.rest.code.toNat ++
    " post=" ++ toString p.post ++ " kw=" ++ toString p.keywords.length ++ " kwrest=" ++ toString p.kwRest ++
    " block=" ++ toString p.block ++ "\n" ++
    (if locals.isEmpty then "" else "   locals:" ++ String.join locals ++ "\n") ++
    String.join (consts.mapIdx fun i c => "   const[" ++ toString i ++ "] = " ++ c ++ "\n") ++
    String.join (q.handlers.map fun h => "   " ++ h.kind.text ++ " " ++ toString h.start ++ ".." ++ toString h.stop ++
      " -> " ++ toString h.dest ++ "\n") ++
    code ++ "\n"

def disasm (w : World m) (c : Config) (args : List String) : Command m Result := do
  let p ← readProgram w (← programPath c args)
  let (fns, machine) ← onMachine p.loadAll (Machine.new c.options)
  let parts := fns.zipIdx.mapM fun (fn, i) => do
    describe machine fn (i + 1 == p.entry.toNat) (← machine.functions.sequence fn)
  match parts with
  | .ok texts => return { out := "\n".intercalate texts }
  | .error d => crash "" d

/-! ## Recorded runs -/

def showRun (r : Run) : String :=
  r.summary ++ String.join (r.cycles.mapIdx fun i c =>
    "  gc #" ++ toString (i + 1) ++ ": marked " ++ toString c.collection.marked ++ ", swept " ++
      toString c.collection.swept ++ ", live " ++ toString c.collection.live ++ " in " ++ c.duration.text ++ "\n")

/-- A run on one line. -/
def runLine (r : Run) : String :=
  "  ".intercalate [r.id.text, Calendar.text r.started, Decimal.padRight 5 ' ' (if r.error = "" then "ok" else "error"),
    Decimal.padLeft 8 ' ' (r.duration.round Duration.millisecond).text, "gc=" ++ toString r.collections.toNat,
    "ic=" ++ Run.rateText r.sites.hitRate, r.unit] ++ "\n"

/-- A positive decimal number of 64 bits, perhaps with a sign. -/
def positive? (s : String) : Option Int := do
  let digits := match s.toList with
    | '+' :: r => r
    | r => r
  let n ← digitsIn 10 digits
  if digits.isEmpty ∨ n = 0 ∨ Number.maxWord < n then none else some n

def listRuns (s : RunStore) (n : Int) : String :=
  match s.recent n with
  | [] => "No runs recorded\n"
  | runs => String.join (runs.map runLine)

def stats (w : World m) (c : Config) (args : List String) : Command m Result := do
  if c.statsFile = "" then fatal "no statistics database: set [stats].db in garnet.toml or pass -stats"
  match ← (openStore w c.statsFile : m (Except String RunStore)) with
  | .error e => fatal e
  | .ok s =>
    match args with
    | ["show"] => throw { code := 1, err := "Usage: garnet stats show <run-id>\n" }
    | "show" :: id :: _ =>
      match Uuid.parse id with
      | .error e => fatal ("invalid run id " ++ Text.quote id ++ ": " ++ e.message)
      | .ok u =>
        match s.find? u with
        | none => fatal "run not found"
        | some r => return { out := showRun r }
    | [] => return { out := listRuns s 10 }
    | n :: _ =>
      match positive? n with
      | none => fatal ("invalid count " ++ Text.quote n)
      | some n => return { out := listRuns s n }

/-! ## Dispatch -/

def command (w : World m) (args : List String) : Command m Result := do
  match parseFlags {} args with
  | .error .help => throw { code := 0, err := usage }
  | .error e => throw { code := 2, err := e.message ++ usage }
  | .ok (flags, args) =>
    let c ← config w flags
    match args with
    | [] => throw { code := 2, err := usage }
    | "run" :: rest => run w c flags.printStats rest
    | "disasm" :: rest => disasm w c rest
    | "stats" :: rest => stats w c rest
    | name :: _ => throw { code := 2, err := "Unknown command: " ++ name ++ "\n" ++ usage }

/-- What the command line does with its arguments. -/
def execute (w : World m) (args : List String) : m Result := do
  match ← (command w args).run with
  | .ok r => return r
  | .error r => return r

end

end RubyMachine.Cli
