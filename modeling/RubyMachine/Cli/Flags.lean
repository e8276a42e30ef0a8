import RubyMachine.Bytes.Basic
import RubyMachine.Machine.State
import RubyMachine.Number.Word
import RubyMachine.Text.Quoted

/-! The options in front of a command. -/

namespace RubyMachine.Cli

/-- Options that were given; those that were not leave the manifest as it is. -/
structure Flags where
  verbosity : Int := 0
  /-- Where the search for a manifest starts. -/
  dir : String := "."
  stackSize : Option Int := none
  debug : Option Bool := none
  collect : Option Bool := none
  threshold : Option Int := none
  fiberPool : Option Int := none
  statsFile : Option String := none
  printStats : Bool := false

inductive FlagError where
  | help
  | badSyntax (arg : String)
  | undefined (name : String)
  | needsArgument (name : String)
  | invalid (name value : String)
  | invalidBoolean (name value : String)

def FlagError.message : FlagError → String
  | help => ""
  | badSyntax arg => "bad flag syntax: " ++ arg ++ "\n"
  | undefined name => "flag provided but not defined: -" ++ name ++ "\n"
  | needsArgument name => "flag needs an argument: -" ++ name ++ "\n"
  | invalid name value => "invalid value " ++ Text.quote value ++ " for flag -" ++ name ++ ": parse error\n"
  | invalidBoolean name value => "invalid boolean value " ++ Text.quote value ++ " for -" ++ name ++ ": parse error\n"

/-! ## Values -/

def digitsIn (base : Nat) : List Char → Option Nat :=
  List.foldlM (fun n c => do
    let d ← Bytes.hexValue? c
    if d < base then some (base * n + d) else none) 0

/-- The base of a number told by how it starts, and its digits. -/
def baseAndDigits : List Char → Nat × List Char
  | '0' :: c :: d :: rest =>
    if c = 'x' ∨ c = 'X' then (16, d :: rest)
    else if c = 'o' ∨ c = 'O' then (8, d :: rest)
    else if c = 'b' ∨ c = 'B' then (2, d :: rest)
    else (8, c :: d :: rest)
  | '0' :: rest => (8, rest)
  | s => (10, s)

/-- Each underscore follows a digit or the base and has a digit after it. -/
def underscoresFit (s : List Char) : Bool :=
  let startsWithBase := match s with
    | '0' :: c :: _ => "xXoObB".toList.contains c
    | _ => false
  let ok := (s.zip s.tail).all fun (a, b) => !(a == '_' && b == '_')
  ok && s.head? != some '_' && s.getLast? != some '_' &&
    (!startsWithBase || (s.drop 2).all fun c => c == '_' || (Bytes.hexValue? c).isSome)

/-- An integer of 64 bits with an optional sign, in any base that can be told from it. -/
def integer? (s : String) : Option Int := do
  let (negative, body) := match s.toList with
    | '-' :: r => (true, r)
    | '+' :: r => (false, r)
    | r => (false, r)
  if body.isEmpty || (body.contains '_' && !underscoresFit body) then none
  let (base, digits) := baseAndDigits body
  let n ← digitsIn base (digits.filter (· != '_'))
  let v : Int := if negative then -n else n
  if Number.fitsWord v then some v else none

def boolean? (s : String) : Option Bool :=
  if ["1", "t", "T", "TRUE", "true", "True"].contains s then some true
  else if ["0", "f", "F", "FALSE", "false", "False"].contains s then some false
  else none

/-! ## Flags -/

/-- What a flag takes and where it goes. -/
inductive Setter where
  | number (f : Flags → Int → Flags)
  | text (f : Flags → String → Flags)
  | toggle (f : Flags → Bool → Flags)

def setters : List (String × Setter) := [
  ("v", .number fun f n => { f with verbosity := n }),
  ("C", .text fun f s => { f with dir := s }),
  ("stack", .number fun f n => { f with stackSize := some n }),
  ("debug", .toggle fun f b => { f with debug := some b }),
  ("gc", .toggle fun f b => { f with collect := some b }),
  ("gc-threshold", .number fun f n => { f with threshold := some n }),
  ("fiber-pool", .number fun f n => { f with fiberPool := some n }),
  ("stats", .text fun f s => { f with statsFile := some s }),
  ("print-stats", .toggle fun f b => { f with printStats := b })]

/-- A flag without its hyphens, as its name and the value after the first equals sign. The name has a
character at least. -/
def splitFlag (s : List Char) : String × Option String :=
  let name := s.take 1 ++ (s.drop 1).takeWhile (· != '=')
  match s.drop name.length with
  | '=' :: value => (String.ofList name, some (String.ofList value))
  | _ => (String.ofList name, none)

/-- Takes flags off the front of the arguments. -/
def parseFlags (f : Flags) : List String → Except FlagError (Flags × List String)
  | [] => .ok (f, [])
  | arg :: rest =>
    match arg.toList with
    | ['-', '-'] => .ok (f, rest)
    | '-' :: c :: cs => do
      let body := if c = '-' then cs else c :: cs
      if body.head? = some '-' ∨ body.head? = some '=' then throw (.badSyntax arg)
      let (name, value) := splitFlag body
      match setters.lookup name, value, rest with
      | none, _, _ => if name = "help" ∨ name = "h" then throw .help else throw (.undefined name)
      | some (.toggle set), none, rest => parseFlags (set f true) rest
      | some (.toggle set), some v, rest =>
        match boolean? v with
        | some b => parseFlags (set f b) rest
        | none => throw (.invalidBoolean name v)
      | some _, none, [] => throw (.needsArgument name)
      | some (.text set), some v, rest => parseFlags (set f v) rest
      | some (.text set), none, v :: rest => parseFlags (set f v) rest
      | some (.number set), some v, rest =>
        match integer? v with
        | some n => parseFlags (set f n) rest
        | none => throw (.invalid name v)
      | some (.number set), none, v :: rest =>
        match integer? v with
        | some n => parseFlags (set f n) rest
        | none => throw (.invalid name v)
    | _ => .ok (f, arg :: rest)
  termination_by args => args.length

/-- The options of a manifest with those of the command line in their place. -/
def Flags.apply (f : Flags) (o : Options) : Options where
  stackSize := f.stackSize.getD o.stackSize
  debug := f.debug.getD o.debug
  collect := f.collect.getD o.collect
  threshold := f.threshold.getD o.threshold
  fiberPool := f.fiberPool.getD o.fiberPool

def usage : String := "Usage: garnet [options] <command> [args...]

Commands:
  run [unit.gbc]        Run a compiled unit (default: [project].entry)
  disasm [unit.gbc]     Disassemble a compiled unit
  stats [n]             List the n most recent recorded runs
  stats show <run-id>   Show one recorded run with its collections

Options:
  -C string
    \tDirectory to search for garnet.toml (default \".\")
  -debug
    \tEnable allocator consistency checks
  -fiber-pool int
    \tFiber stacks kept for reuse
  -gc
    \tEnable automatic garbage collection (default true)
  -gc-threshold int
    \tAllocations between automatic collections
  -print-stats
    \tPrint run statistics after the program finishes
  -stack int
    \tValue stack slots per VM
  -stats string
    \tRecord run statistics in this database
  -v int
    \tLog verbosity (0 = errors only, 1 = info, 2 = debug)

Command-line options override garnet.toml.
"

end RubyMachine.Cli
