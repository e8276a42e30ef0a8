import RubyMachine.Bytes.Basic
import RubyMachine.Files.Path

/-! What the command line needs of files, and a tree of files held in memory that provides it. -/

namespace RubyMachine

/-- Why a file cannot be reached, read or written. -/
inductive FileFault where
  | missing
  | notDirectory
  | isDirectory
  | inTheWay
  | longName
  | badName
  | other (text : String)

def FileFault.text : FileFault → String
  | missing => "no such file or directory"
  | notDirectory => "not a directory"
  | isDirectory => "is a directory"
  | inTheWay => "file exists"
  | longName => "file name too long"
  | badName => "invalid argument"
  | other s => s

/-- What was tried, where, and what was in the way. -/
structure FileError where
  action : String
  path : String
  fault : FileFault

def FileError.message (e : FileError) : String := e.action ++ " " ++ e.path ++ ": " ++ e.fault.text

/-- Access to files from within `m`. -/
structure Files (m : Type → Type) where
  /-- The directory that relative paths start from. -/
  here : m String
  /-- Whether there is a file or directory. -/
  has : String → m Bool
  read : String → m (Except FileError Bytes)
  /-- Makes a directory and those above it, where they are missing. -/
  makeDirectory : String → m (Except FileError Unit)
  /-- Replaces a file. -/
  write : String → Bytes → m (Except FileError Unit)

/-- Files and directories under their absolute paths. -/
structure FileTree where
  here : String := "/"
  files : List (String × Bytes) := []
  directories : List String := []

namespace FileTree

/-- The longest name of a file, and the longest path, in bytes. -/
def maxName : Nat := 255
def maxPath : Nat := 4095

def hasFile (t : FileTree) (place : String) : Bool := (t.files.lookup place).isSome

/-- A directory is there if it was made or if anything is below it. -/
def hasDirectory (t : FileTree) (place : String) : Bool :=
  place == "/" || (t.here :: t.directories ++ t.files.map Prod.fst).any fun p =>
    p.startsWith (place ++ "/") || p == place && !t.hasFile place

/-- Follows steps from a place, one after the other: what a step is taken from has to be a directory,
also where the step goes nowhere or up again. -/
def walk (t : FileTree) (place : String) : List String → Except FileFault String
  | [] => .ok place
  | s :: rest =>
    if t.hasFile place then .error .notDirectory
    else if !t.hasDirectory place then .error .missing
    else if maxName < s.utf8ByteSize then .error .longName
    else t.walk (Path.join place s) rest

/-- The place that a path leads to, which may be empty. -/
def follow (t : FileTree) (p : String) : Except FileFault String :=
  if p = "" then .error .missing
  else if p.contains '\x00' then .error .badName
  else if maxPath < p.utf8ByteSize then .error .longName
  else t.walk (if Path.isAbsolute p then "/" else t.here) (p.splitOn "/")

def read (t : FileTree) (p : String) : Except FileError Bytes :=
  match t.follow p with
  | .error fault => .error ⟨"open", p, fault⟩
  | .ok place =>
    match t.files.lookup place with
    | some b => .ok b
    | none => .error (if t.hasDirectory place then ⟨"read", p, .isDirectory⟩ else ⟨"open", p, .missing⟩)

def has (t : FileTree) (p : String) : Bool :=
  match t.follow p with
  | .error _ => false
  | .ok place => t.hasFile place || t.hasDirectory place

/-- Adds a file, or a directory where the path ends with a slash. -/
def insert (t : FileTree) (p : String) (b : Bytes) : FileTree :=
  let place := Path.absolute t.here p
  if p.endsWith "/" then { t with directories := place :: t.directories }
  else { t with files := (place, b) :: t.files.filter fun f => f.1 != place }

/-- A file in the place of the directory, or above it, is in the way. -/
def makeDirectory (t : FileTree) (dir : String) : Except FileError FileTree :=
  let place := Path.absolute t.here dir
  if t.hasFile place then .error ⟨"mkdir", dir, .notDirectory⟩
  else match (Path.upward dir.length dir).find? fun p => t.hasFile (Path.absolute t.here p) with
    | some p => .error ⟨"mkdir", p ++ "/", .inTheWay⟩
    | none => .ok { t with directories := place :: t.directories }

def write (t : FileTree) (p : String) (b : Bytes) : Except FileError FileTree :=
  match t.follow p with
  | .error fault => .error ⟨"open", p, fault⟩
  | .ok place =>
    if t.hasDirectory place then .error ⟨"open", p, .isDirectory⟩
    else .ok (t.insert place b)

/-- Does something that may be refused and then changes nothing. -/
def attempt (f : FileTree → Except FileError FileTree) : StateM FileTree (Except FileError Unit) :=
  modifyGet fun t =>
    match f t with
    | .ok t => (.ok (), t)
    | .error e => (.error e, t)

/-- Access to a tree that changes with what is written. -/
def access : Files (StateM FileTree) where
  here := return (← get).here
  has p := return (← get).has p
  read p := return (← get).read p
  makeDirectory p := attempt (·.makeDirectory p)
  write p b := attempt (·.write p b)

end FileTree

end RubyMachine
