import RubyMachine.Machine.Classes

/-! Machines with the classes and methods that every program finds. -/

namespace RubyMachine

namespace Exec

def defineTop (name : String) (super : Option Nat) (isModule : Bool) : Exec Nat := do
  defineModule ClassTable.object (← intern name) super isModule

/-- Makes the core classes, in the order of their numbers. -/
def defineCore : Exec Unit := do
  let object ← allocModule .object none false
  setConst object .object (← module object).self
  discard (defineTop "Module" (some ClassTable.object) false)
  discard (defineTop "Class" (some ClassTable.module) false)
  discard (defineTop "Kernel" none true)
  mixIn ClassTable.object ClassTable.kernel
  let plain := ["Integer", "Float", "NilClass", "TrueClass", "FalseClass", "Symbol", "String", "Array",
    "Hash", "Proc", "Binding", "Exception", "Fiber", "Enumerator"]
  plain.forM fun name => discard (defineTop name none false)
  discard (defineTop "GC" none true)

def boot : Exec Unit := do
  defineCore
  let main ← newObject ClassTable.object
  modify fun m => { m with mainObject := main }
  Builtin.entries.forM defineBuiltin

end Exec

namespace Machine

/-- A machine ready to run code. -/
def new (options : Options) : Machine :=
  match Exec.boot (blank options) with
  | .ok _ m => m
  | .error _ m => m

end Machine

end RubyMachine
