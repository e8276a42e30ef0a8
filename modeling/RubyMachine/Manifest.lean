import RubyMachine.Files.Basic
import RubyMachine.Machine.State
import RubyMachine.Toml.Document

/-! Project manifests: which program to run, with which options, and where to keep statistics. -/

namespace RubyMachine

structure Manifest where
  name : String := ""
  version : String := ""
  /-- The program to run. -/
  entry : String := ""
  options : Options := {}
  /-- The file of the run statistics. -/
  statsFile : String := ""
  /-- The directory the manifest was found in. -/
  dir : String := ""

namespace Manifest

def fileName : String := "garnet.toml"

/-- What a manifest says that no machine could be made for. -/
inductive Fault where
  | stackSize (n : Int)
  | threshold (n : Int)
  | poolSize (n : Int)

def Fault.message : Fault → String
  | stackSize n => "vm.stack-size must be positive, got " ++ toString n
  | threshold n => "gc.threshold must be positive, got " ++ toString n
  | poolSize n => "fiber.pool-size must not be negative, got " ++ toString n

inductive Error where
  | read (path : String) (e : FileError)
  | parse (path : String)
  | invalid (path : String) (fault : Fault)

def Error.message : Error → String
  | read path e => "cannot read " ++ path ++ ": " ++ e.message
  | parse path => "parse error in " ++ path
  | invalid path fault => path ++ ": " ++ fault.message

/-! ## Fields -/

/-- Letters without regard to case. Two letters outside ASCII have an ASCII letter as their lower case
form. -/
def foldChar (c : Char) : Char :=
  if c = '\u017f' then 's' else if c = '\u212a' then 'k' else c.toLower

def sameKey (a b : String) : Bool := a.toList.map foldChar == b.toList.map foldChar

/-- How the value of a key changes the manifest. -/
abbrev Field := String × (Manifest → Toml.Node → Option Manifest)

def text (f : Manifest → String → Manifest) (m : Manifest) : Toml.Node → Option Manifest
  | .string s => some (f m s)
  | _ => none

def count (f : Options → Int → Options) (m : Manifest) : Toml.Node → Option Manifest
  | .integer n => some { m with options := f m.options n }
  | _ => none

def flag (f : Options → Bool → Options) (m : Manifest) : Toml.Node → Option Manifest
  | .boolean b => some { m with options := f m.options b }
  | _ => none

/-- Reads the keys that are known, with a field of the very name before one that differs in case. -/
def readTable (fields : List Field) : Manifest → Toml.Table → Option Manifest
  | m, [] => some m
  | m, (k, v) :: rest => do
    let m ← match (fields.find? (·.1 == k)).or (fields.find? fun f => sameKey f.1 k) with
      | some f => f.2 m v
      | none => some m
    readTable fields m rest

/-- A section is a table of fields. -/
def readSection (fields : List Field) (m : Manifest) : Toml.Node → Option Manifest
  | .table t => readTable fields m t
  | _ => none

def sections : List Field := [
  ("project", readSection [
    ("name", text fun m s => { m with name := s }),
    ("version", text fun m s => { m with version := s }),
    ("entry", text fun m s => { m with entry := s })]),
  ("vm", readSection [
    ("stack-size", count fun o n => { o with stackSize := n }),
    ("debug", flag fun o b => { o with debug := b })]),
  ("gc", readSection [
    ("enabled", flag fun o b => { o with collect := b }),
    ("threshold", count fun o n => { o with threshold := n })]),
  ("fiber", readSection [("pool-size", count fun o n => { o with fiberPool := n })]),
  ("stats", readSection [("db", text fun m s => { m with statsFile := s })])]

/-- Keys that are not given keep their defaults, and unknown ones are passed over. -/
def ofText? (s : String) : Option Manifest := do readTable sections {} (← Toml.table? s)

def check (m : Manifest) : Option Fault :=
  if m.options.stackSize ≤ 0 then some (.stackSize m.options.stackSize)
  else if m.options.threshold ≤ 0 then some (.threshold m.options.threshold)
  else if m.options.fiberPool < 0 then some (.poolSize m.options.fiberPool)
  else none

/-! ## Paths -/

/-- A path of the manifest, which is relative to its directory. -/
def resolve (m : Manifest) (p : String) : String :=
  if p = "" ∨ Path.isAbsolute p then p else Path.join m.dir p

def entryPath (m : Manifest) : String := m.resolve m.entry

def statsPath (m : Manifest) : String := m.resolve m.statsFile

/-! ## Loading -/

variable {m : Type → Type} [Monad m]

/-- Reads the manifest of a directory. -/
def load (files : Files m) (dir : String) : m (Except Error Manifest) := do
  let path := Path.join dir fileName
  match ← files.read path with
  | .error e => return .error (.read path e)
  | .ok bytes =>
    match (String.fromUTF8? ⟨bytes⟩).bind ofText? with
    | none => return .error (.parse path)
    | some manifest =>
      match manifest.check with
      | some fault => return .error (.invalid path fault)
      | none => return .ok { manifest with dir := Path.absolute (← files.here) dir }

def findIn (files : Files m) : List String → m (Except Error (Option Manifest))
  | [] => return .ok none
  | dir :: rest => do
    if ← files.has (Path.join dir fileName) then return (← load files dir).map some
    else findIn files rest

/-- Reads the first manifest in a directory or one above it, if there is any. -/
def find (files : Files m) (start : String) : m (Except Error (Option Manifest)) := do
  let dir := Path.absolute (← files.here) start
  findIn files (Path.upward dir.length dir)

end Manifest

end RubyMachine
