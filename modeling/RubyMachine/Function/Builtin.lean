import RubyMachine.Class.Table
import RubyMachine.Operator

/-! The methods that come with the machine: where they are defined, under which names, and how many
arguments they take. -/

namespace RubyMachine

inductive Builtin where
  -- every object
  | identical | differs | caseEqual | negation | isNil | classOf | inspect | inspectAll | puts
  | raise | blockGiven | makeProc | makeLambda | loop | toEnum | binding | ivarGet | ivarSet
  | emptyText
  -- classes and modules
  | moduleName | mixIn | attributes (reader writer : Bool) | ancestors | construct
  -- numbers
  | operator (op : Operator) | negative | integerText | toFloat | times | floatText | toInteger
  -- strings and symbols
  | itself | stringEqual | stringConcat | stringAppend | stringSize | toSymbol | symbolText
  | symbolProc
  -- arrays and hashes
  | arraySize | arrayGet | arraySet | arrayPush | arrayFirst | arrayEqual | arrayEach | arrayMap
  | dictGet | dictSet | dictSize | dictHasKey | dictKeys
  -- procs and bindings
  | procCall | isLambda | procBinding
  | localNames | receiver | localGet | localSet | localDefined
  -- fibers and enumerators
  | newFiber | fiberYield | fiberResume | fiberAlive
  | newEnumerator | enumNext | enumRewind | enumEach | enumMap | enumWithIndex | enumText
  -- the collector
  | collect | collections | enableCollector | disableCollector | heapStats
  /-- A method of the host, by name. -/
  | host (name : String)

/-- How many arguments a function takes; without `max`, any number from `min` on. -/
structure Arity where
  min : Nat
  max : Option Nat

namespace Arity

def exactly (n : Nat) : Arity := ⟨n, some n⟩

def between (m n : Nat) : Arity := ⟨m, some n⟩

def atLeast (n : Nat) : Arity := ⟨n, none⟩

end Arity

/-- A builtin under a name in a class, or in the singleton class of it. -/
structure Builtin.Entry where
  owner : Nat
  singleton : Bool := false
  name : String
  arity : Arity
  builtin : Builtin

namespace Builtin

private def method (owner : Nat) (name : String) (arity : Arity) (builtin : Builtin) : Entry :=
  { owner, name, arity, builtin }

private def classMethod (owner : Nat) (name : String) (arity : Arity) (builtin : Builtin) : Entry :=
  { owner, singleton := true, name, arity, builtin }

open Arity ClassTable

private def kernelEntries : List Entry := [
  method kernel "==" (exactly 1) identical,
  method kernel "equal?" (exactly 1) identical,
  method kernel "!=" (exactly 1) differs,
  method kernel "===" (exactly 1) caseEqual,
  method kernel "!" (exactly 0) negation,
  method kernel "nil?" (exactly 0) isNil,
  method kernel "class" (exactly 0) classOf,
  method kernel "inspect" (exactly 0) inspect,
  method kernel "to_s" (exactly 0) inspect,
  method kernel "p" (atLeast 0) inspectAll,
  method kernel "puts" (atLeast 0) puts,
  method kernel "raise" (between 0 1) raise,
  method kernel "block_given?" (exactly 0) blockGiven,
  method kernel "proc" (exactly 0) makeProc,
  method kernel "lambda" (exactly 0) makeLambda,
  method kernel "loop" (exactly 0) loop,
  method kernel "to_enum" (atLeast 0) toEnum,
  method kernel "enum_for" (atLeast 0) toEnum,
  method kernel "binding" (exactly 0) binding,
  method kernel "instance_variable_get" (exactly 1) ivarGet,
  method kernel "instance_variable_set" (exactly 2) ivarSet,
  method nilClass "to_s" (exactly 0) emptyText]

private def moduleEntries : List Entry := [
  method module "name" (exactly 0) moduleName,
  method module "include" (atLeast 1) mixIn,
  method module "attr_reader" (atLeast 0) (attributes true false),
  method module "attr_writer" (atLeast 0) (attributes false true),
  method module "attr_accessor" (atLeast 0) (attributes true true),
  method module "ancestors" (exactly 0) ancestors,
  method cls "new" (atLeast 0) construct]

private def operatorEntries (owner : Nat) : List Entry :=
  Operator.all.map (fun op =>
    method owner (IdentTable.empty.name op.method) (exactly 1) (operator op)) ++
  [method owner "-@" (exactly 0) negative]

private def numberEntries : List Entry :=
  operatorEntries integer ++ [
    method integer "to_s" (exactly 0) integerText,
    method integer "to_f" (exactly 0) toFloat,
    method integer "times" (exactly 0) times] ++
  operatorEntries float ++ [
    method float "to_s" (exactly 0) floatText,
    method float "to_i" (exactly 0) toInteger]

private def textEntries : List Entry := [
  method string "to_s" (exactly 0) itself,
  method string "==" (exactly 1) stringEqual,
  method string "+" (exactly 1) stringConcat,
  method string "<<" (exactly 1) stringAppend,
  method string "size" (exactly 0) stringSize,
  method string "to_sym" (exactly 0) toSymbol,
  method symbol "to_s" (exactly 0) symbolText,
  method symbol "to_proc" (exactly 0) symbolProc]

private def containerEntries : List Entry := [
  method array "size" (exactly 0) arraySize,
  method array "length" (exactly 0) arraySize,
  method array "[]" (exactly 1) arrayGet,
  method array "[]=" (exactly 2) arraySet,
  method array "push" (atLeast 0) arrayPush,
  method array "<<" (exactly 1) arrayPush,
  method array "first" (exactly 0) arrayFirst,
  method array "==" (exactly 1) arrayEqual,
  method array "each" (exactly 0) arrayEach,
  method array "map" (exactly 0) arrayMap,
  method array "collect" (exactly 0) arrayMap,
  method dict "[]" (exactly 1) dictGet,
  method dict "[]=" (exactly 2) dictSet,
  method dict "size" (exactly 0) dictSize,
  method dict "key?" (exactly 1) dictHasKey,
  method dict "keys" (exactly 0) dictKeys]

private def closureEntries : List Entry := [
  method proc "call" (atLeast 0) procCall,
  method proc "[]" (atLeast 0) procCall,
  method proc "yield" (atLeast 0) procCall,
  method proc "lambda?" (exactly 0) isLambda,
  method proc "binding" (exactly 0) procBinding,
  method ClassTable.binding "local_variables" (exactly 0) localNames,
  method ClassTable.binding "receiver" (exactly 0) receiver,
  method ClassTable.binding "local_variable_get" (exactly 1) localGet,
  method ClassTable.binding "local_variable_set" (exactly 2) localSet,
  method ClassTable.binding "local_variable_defined?" (exactly 1) localDefined]

private def fiberEntries : List Entry := [
  classMethod fiber "new" (exactly 0) newFiber,
  classMethod fiber "yield" (atLeast 0) fiberYield,
  method fiber "resume" (atLeast 0) fiberResume,
  method fiber "alive?" (exactly 0) fiberAlive,
  classMethod enumerator "new" (atLeast 1) newEnumerator,
  method enumerator "next" (exactly 0) enumNext,
  method enumerator "rewind" (exactly 0) enumRewind,
  method enumerator "each" (exactly 0) enumEach,
  method enumerator "map" (exactly 0) enumMap,
  method enumerator "collect" (exactly 0) enumMap,
  method enumerator "with_index" (between 0 1) enumWithIndex,
  method enumerator "inspect" (exactly 0) enumText]

private def collectorEntries : List Entry := [
  classMethod collector "start" (exactly 0) collect,
  classMethod collector "count" (exactly 0) collections,
  classMethod collector "enable" (exactly 0) enableCollector,
  classMethod collector "disable" (exactly 0) disableCollector,
  classMethod collector "stat" (exactly 0) heapStats]

/-- Every builtin in the order of definition, which fixes the numbers of names and functions. -/
def entries : List Entry :=
  kernelEntries ++ moduleEntries ++ numberEntries ++ textEntries ++ containerEntries ++
  closureEntries ++ fiberEntries ++ collectorEntries

end Builtin

end RubyMachine
