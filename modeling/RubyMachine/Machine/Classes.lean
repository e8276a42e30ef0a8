import RubyMachine.Machine.Objects

/-! Defining classes, methods and constants, and finding methods through the caches. Every change that
a lookup could notice moves the machine to a new version. -/

namespace RubyMachine.Exec

def bumpVersion : Exec Unit := modify fun m => { m with version := m.version + 1 }

def module (id : Nat) : Exec Module := return (← get).classes.entry id

def modifyModule (id : Nat) (f : Module → Module) : Exec Unit :=
  modify fun m => { m with classes := m.classes.modify id f }

/-! ## Definitions -/

/-- Makes a class or module that has no name yet in any other. -/
def allocModule (name : Ident) (super : Option Nat) (isModule : Bool) : Exec Nat := do
  let id := (← get).classes.size
  let self ← alloc (.module id)
  modify fun m => { m with classes := m.classes.push { name, super, isModule, self } }
  return id

def setConst (cls : Nat) (name : Ident) (v : Value) : Exec Unit := do
  modifyModule cls fun m => { m with consts := bindName name v m.consts }
  bumpVersion

/-- The module bound to a constant of `parent` itself. -/
def constModule? (parent : Nat) (name : Ident) : Exec (Option Nat) := do
  match (← module parent).consts.lookup name with
  | some v => asModule? v
  | none => return none

/-- Opens a class or module of that name, or makes it; without a superclass it is under Object. -/
def defineModule (parent : Nat) (name : Ident) (super : Option Nat) (isModule : Bool) : Exec Nat := do
  match ← constModule? parent name with
  | some id => return id
  | none =>
    let super := if isModule then super else some (super.getD ClassTable.object)
    let id ← allocModule name super isModule
    setConst parent name (← module id).self
    return id

/-- The singleton class of a class, made if it is not there. Those of its superclasses come first. -/
def singletonClass (id : Nat) : Exec Nat := do
  let e ← module id
  match e.singleton with
  | some s => return s
  | none =>
    let super ←
      if e.isModule then pure ClassTable.module
      else match e.super with
        | some s => if s < id then singletonClass s else pure ClassTable.cls
        | none => pure ClassTable.cls
    let single ← allocModule e.name (some super) false
    modifyModule single fun m => { m with attached := some id }
    modifyModule id fun m => { m with singleton := some single }
    bumpVersion
    return single
termination_by id

def mixIn (cls mod : Nat) : Exec Unit := do
  if (← module cls).includes.contains mod then return
  modifyModule cls fun m => { m with includes := m.includes ++ [mod] }
  bumpVersion

def defineMethod (cls : Nat) (name : Ident) (fn : FnId) : Exec Unit := do
  modifyModule cls fun m => { m with methods := bindName name fn m.methods }
  bumpVersion

def addFunction (f : Function) : Exec FnId := modifyGet fun m =>
  let (fn, t) := m.functions.add f
  (fn, { m with functions := t })

/-- Adds code. The numbers of its caches must be such that there can be so many. -/
def addSequence (seq : Code.Sequence) : Exec FnId := do
  if !Function.canHoldSites seq then throw .fault
  addFunction (.ofSequence seq)

def setOwner (fn : FnId) (cls : Nat) : Exec Unit :=
  modify fun m => { m with functions := m.functions.modify fn fun f => { f with owner := some cls } }

def defineBuiltin (e : Builtin.Entry) : Exec Unit := do
  let owner ← if e.singleton then singletonClass e.owner else pure e.owner
  let name ← intern e.name
  let fn ← addFunction { name, body := .builtin e.builtin, arity := e.arity }
  defineMethod owner name fn

/-- Defines readers and writers for an instance variable. -/
def defineAttr (cls : Nat) (name : String) (reader writer : Bool) : Exec Unit := do
  let ivar ← intern ("@" ++ name)
  if reader then
    let id ← intern name
    defineMethod cls id (← addFunction { name := id, body := .attrReader ivar })
  if writer then
    let id ← intern (name ++ "=")
    defineMethod cls id (← addFunction { name := id, body := .attrWriter ivar, arity := .exactly 1 })

/-! ## Lookup -/

def findConst? (cls : Option Nat) (name : Ident) : Exec (Option Value) :=
  return (← get).classes.findConst? (cls.getD ClassTable.object) name

/-- Finds a method through the cache of full lookups. -/
def findMethod? (cls : Nat) (name : Ident) : Exec (Option FnId) := modifyGet fun m =>
  let c := m.lookups
  let known := c.entries.find? fun e => e.cls == cls && e.name == name
  match known.filter fun e => e.version == m.version with
  | some e => (e.result, { m with lookups := { c with hits := c.hits + 1 } })
  | none =>
    let result := m.classes.findMethod? cls name
    let others := c.entries.filter fun e => !(e.cls == cls && e.name == name)
    (result, { m with lookups :=
      { c with entries := ⟨cls, name, m.version, result⟩ :: others, misses := c.misses + 1 } })

def setSite (fn : FnId) (site : Nat) (c : Cache.Inline) : Exec Unit :=
  modify fun m => { m with functions := m.functions.modify fn fun f =>
    { f with sites := f.sites.setIfInBounds site c } }

/-- Finds a method through the cache of a call site of `fn`. -/
def findMethodAt? (fn : FnId) (site : Nat) (cls : Nat) (name : Ident) : Exec (Option FnId) := do
  match (← function fn).sites[site]? with
  | none => throw .fault
  | some cache =>
    let version := (← get).version
    let (hit, cache) := cache.lookup cls version
    setSite fn site cache
    match hit with
    | some f => return some f
    | none =>
      match ← findMethod? cls name with
      | some f =>
        setSite fn site (cache.update cls f version)
        return some f
      | none => return none

/-- Finds a constant through the cache of a reference in `fn`. -/
def findConstAt? (fn : FnId) (site : Nat) (name : Ident) : Exec (Option Value) := do
  let f ← function fn
  match f.constSites[site]? with
  | none => throw .fault
  | some cache =>
    let version := (← get).version
    match cache.lookup? version with
    | some v => return some v
    | none =>
      match ← findConst? f.owner name with
      | some v =>
        modify fun m => { m with functions := m.functions.modify fn fun f =>
          { f with constSites := f.constSites.setIfInBounds site (cache.update v version) } }
        return some v
      | none => return none

end RubyMachine.Exec
