import RubyMachine.Toml.Parser

/-! The table that the statements of a document describe.

A key may be given once. Tables on the way to a key come into being with it; such an implied table may
be given a head of its own afterwards, once. -/

namespace RubyMachine.Toml

inductive Node where
  | string (s : String)
  | integer (n : Int)
  | boolean (b : Bool)
  /-- A float, a date or an array. -/
  | other
  | table (entries : List (String × Node))
  /-- An array of tables, the last one first. -/
  | tables (elements : List (List (String × Node)))
  deriving Inhabited

abbrev Table := List (String × Node)

namespace Table

def find? (t : Table) (k : String) : Option Node := t.lookup k

/-- Gives a key its value, in its old place if there is one. -/
def insert (t : Table) (k : String) (v : Node) : Table :=
  match t with
  | [] => [(k, v)]
  | (k', v') :: rest => if k' = k then (k, v) :: rest else (k', v') :: insert rest k v

/-- Changes the table at a path; of an array of tables, the last. -/
def modifyAt (f : Table → Option Table) : KeyPath → Table → Option Table
  | [], t => f t
  | k :: path, t =>
    match t.find? k with
    | some (.table inner) => do return t.insert k (.table (← modifyAt f path inner))
    | some (.tables (last :: others)) => do return t.insert k (.tables ((← modifyAt f path last) :: others))
    | _ => none

def at? : KeyPath → Table → Option Table
  | [], t => some t
  | k :: path, t =>
    match t.find? k with
    | some (.table inner) => at? path inner
    | some (.tables (last :: _)) => at? path last
    | _ => none

/-- Gives a value to a key with dots; what stands on the way must be tables. -/
def insertPath (t : Table) : KeyPath → Node → Option Table
  | [], _ => some t
  | [k], x => some (t.insert k x)
  | k :: path, x =>
    match t.find? k with
    | none => do return t.insert k (.table (← insertPath [] path x))
    | some (.table inner) => do return t.insert k (.table (← insertPath inner path x))
    | some _ => none

end Table

def Value.isArray : Value → Bool
  | .array _ => true
  | _ => false

structure Document where
  root : Table := []
  /-- Tables that nothing but a longer key has brought into being. -/
  implied : List KeyPath := []
  /-- Keys that were last given an array. -/
  arrays : List KeyPath := []

/-- Building a document, which fails when a key is given twice. -/
abbrev Build := StateT Document Option

namespace Build

def imply (path : KeyPath) : Build Unit :=
  modify fun d => { d with implied := path :: d.implied.filter (· != path) }

def isImplied (path : KeyPath) : Build Bool := return (← get).implied.contains path

def settle (path : KeyPath) : Build Unit :=
  modify fun d => { d with implied := d.implied.filter (· != path) }

/-- Notes whether a key holds an array. -/
def noteArray (path : KeyPath) (isArray : Bool) : Build Unit :=
  modify fun d =>
    let others := d.arrays.filter (· != path)
    { d with arrays := if isArray then path :: others else others }

/-- Notes whether the value of a key is an array. The value of the empty key of a table counts as the
table's own. -/
def noteValue (path : KeyPath) (isArray : Bool) : Build Unit :=
  noteArray (if 1 < path.length ∧ path.getLast? = some "" then path.dropLast else path) isArray

def put (context : KeyPath) (k : String) (v : Node) : Build Unit := do
  let d ← get
  let root ← d.root.modifyAt (fun t => some (t.insert k v)) context
  set { d with root }

/-- Gives a key of the table at `context` its value. Of a key that is implied only the mark goes,
unless it holds an array, which gives way. -/
def assign (context : KeyPath) (k : String) (v : Node) : Build Unit := do
  let path := context ++ [k]
  match (← Table.at? context (← get).root).find? k with
  | none => put context k v
  | some _ =>
    if !(← isImplied path) then failure
    settle path
    if (← get).arrays.contains path then put context k v

/-- Makes the tables above a key, as far as they are missing. -/
def reach : KeyPath → KeyPath → Build Unit
  | _, [] => return ()
  | above, k :: rest => do
    match (← Table.at? above (← get).root).find? k with
    | none =>
      imply (above ++ [k])
      put above k (.table [])
    | some (.table _) => return ()
    | some (.tables _) => return ()
    | some _ => failure
    reach (above ++ [k]) rest

/-- Enters the table at a path. -/
def enter (path : KeyPath) : Build Unit := do
  reach [] path.dropLast
  assign path.dropLast (path.getLast?.getD "") (.table [])

/-- Adds a table to the array at a path. -/
def extend (path : KeyPath) : Build Unit := do
  reach [] path.dropLast
  let context := path.dropLast
  let k := path.getLast?.getD ""
  match (← Table.at? context (← get).root).find? k with
  | none => put context k (.tables [[]])
  | some (.tables ts) => put context k (.tables ([] :: ts))
  | some _ => failure

/-- Enters the tables that a dotted key names, one after the other. -/
def enterParts (context : KeyPath) : KeyPath → Build Unit
  | [] => return ()
  | k :: rest => do
    imply (context ++ [k])
    enter (context ++ [k])
    enterParts (context ++ [k]) rest

/-- Gives a key below `context` a value that is there already. -/
def assignPath (context key : KeyPath) (v : Node) : Build Unit :=
  assign (context ++ key.dropLast) (key.getLast?.getD "") v

mutual

/-- The node of a value whose key is `path`. The entries of an inline table are given to the table at
that path one by one; inside an array, to a new element of it. -/
def node (path : KeyPath) (inArray : Bool) : Value → Build Node
  | .string s => return .string s
  | .integer n => return .integer n
  | .float _ => return .other
  | .boolean b => return .boolean b
  | .date _ => return .other
  | .array items => do
    noteValue path true
    elements path items
    return .other
  | .table es => do
    imply path
    if inArray then extend path else enter path
    inlineEntries path es []

def elements (path : KeyPath) : List Value → Build Unit
  | [] => return ()
  | v :: vs => do
    let _ ← node path true v
    elements path vs

def inlineEntries (path : KeyPath) : List (KeyPath × Value) → Table → Build Node
  | [], t => return .table t
  | (key, v) :: rest, t => do
    enterParts path key.dropLast
    let x ← node (path ++ key) false v
    assignPath path key x
    noteValue (path ++ key) v.isArray
    inlineEntries path rest (← t.insertPath key x)

end

/-- Carries a statement out below the table of the last head, and gives the table that the next one
is below. -/
def statement (context : KeyPath) : Statement → Build KeyPath
  | .assign key v => do
    enterParts context key.dropLast
    let x ← node (context ++ key) false v
    assignPath context key x
    noteValue (context ++ key) v.isArray
    return context
  | .table path => do
    enter path
    noteArray path false
    return path
  | .element path => do
    extend path
    noteArray path false
    return path

def statements (context : KeyPath) : List Statement → Build Unit
  | [] => return ()
  | s :: rest => do statements (← statement context s) rest

end Build

/-- The table that a text describes. -/
def table? (text : String) : Option Table := do
  let (_, d) ← (Build.statements [] (← parse text)).run {}
  return d.root

end RubyMachine.Toml
