import RubyMachine.Cache.Inline
import RubyMachine.Code.Sequence
import RubyMachine.Defect
import RubyMachine.Function.Builtin

/-! Functions: everything that can be called, numbered from 1. -/

namespace RubyMachine

inductive FunctionBody where
  | code (seq : Code.Sequence)
  | builtin (b : Builtin)
  | attrReader (ivar : Ident)
  | attrWriter (ivar : Ident)

structure Function where
  name : Ident
  body : FunctionBody
  arity : Arity := ⟨0, some 0⟩
  /-- The class the code was defined in; without one, the top level. -/
  owner : Option Nat := none
  /-- Caches of the call sites. -/
  sites : Array Cache.Inline := #[]
  /-- Caches of the constant references. -/
  constSites : Array Cache.Const := #[]

namespace Function

/-- How functions of each kind are called, by number. -/
def kindTextOfCode : Int → String
  | 0 => "ruby"
  | 1 => "builtin"
  | 2 => "attr_reader"
  | 3 => "attr_writer"
  | n => "FuncKind(" ++ toString n ++ ")"

def kindCode (f : Function) : Nat :=
  match f.body with
  | .code _ => 0
  | .builtin _ => 1
  | .attrReader _ => 2
  | .attrWriter _ => 3

def kindText (f : Function) : String := kindTextOfCode f.kindCode

/-- Caches of call sites take 136 bytes each and those of constants 24, out of as many as 48 bits can number. -/
def canHoldSites (seq : Code.Sequence) : Bool :=
  0 ≤ seq.methodSites && seq.methodSites * 136 ≤ 0x1000000000000 && 0 ≤ seq.constSites &&
    seq.constSites * 24 ≤ 0x1000000000000

def ofSequence (seq : Code.Sequence) : Function where
  name := seq.name
  body := .code seq
  sites := Array.replicate seq.methodSites.toNat {}
  constSites := Array.replicate seq.constSites.toNat {}

/-- A function with other instructions, if it has any. -/
def withCode (f : Function) (code : Bytes) : Function :=
  match f.body with
  | .code seq => { f with body := .code { seq with code } }
  | _ => f

end Function

structure FunctionTable where
  functions : Array Function := #[]

namespace FunctionTable

def size (t : FunctionTable) : Nat := t.functions.size

/-- Adds a function and gives its number. -/
def add (t : FunctionTable) (f : Function) : FnId × FunctionTable :=
  (⟨UInt32.ofNat (t.size + 1)⟩, ⟨t.functions.push f⟩)

def find? (t : FunctionTable) (fn : FnId) : Option Function :=
  if fn.id = 0 then none else t.functions[fn.id.toNat - 1]?

def get (t : FunctionTable) (fn : FnId) : Except Defect Function :=
  match t.find? fn with
  | some f => .ok f
  | none => .error (.invalidFunction fn)

/-- The code of a function. -/
def sequence (t : FunctionTable) (fn : FnId) : Except Defect Code.Sequence := do
  match (← t.get fn).body with
  | .code seq => return seq
  | _ => throw (.notBytecode fn)

def modify (t : FunctionTable) (fn : FnId) (f : Function → Function) : FunctionTable :=
  if fn.id = 0 then t else ⟨t.functions.modify (fn.id.toNat - 1) f⟩

/-- The caches of all call sites. -/
def allSites (t : FunctionTable) : List Cache.Inline := t.functions.toList.flatMap fun f => f.sites.toList

end FunctionTable

end RubyMachine
