import RubyMachine.Ident

/-! Classes and modules. They are numbered in the order they were made; a superclass and the owner of
a singleton class always have smaller numbers than the class itself. -/

namespace RubyMachine

/-! ## Tables from names -/

/-- Puts a binding in the place of an older one of the same name, or at the end. -/
def bindName {α : Type} (name : Ident) (a : α) : List (Ident × α) → List (Ident × α)
  | [] => [(name, a)]
  | (n, b) :: rest => if n = name then (n, a) :: rest else (n, b) :: bindName name a rest

structure Module where
  name : Ident
  super : Option Nat := none
  isModule : Bool := false
  /-- Modules mixed in, the first one first. -/
  includes : List Nat := []
  methods : List (Ident × FnId) := []
  consts : List (Ident × Value) := []
  /-- The slots of instance variables first used through this class. -/
  ivarSlots : List (Ident × Nat) := []
  /-- Instance variables of the class itself. -/
  ivars : List (Ident × Value) := []
  /-- The class that holds the methods of the class itself, made on demand. -/
  singleton : Option Nat := none
  /-- The class a singleton class belongs to. -/
  attached : Option Nat := none
  /-- The reference the class was allocated under. -/
  self : Value := .nil

instance : Inhabited Module := ⟨{ name := .none }⟩

structure ClassTable where
  modules : Array Module := #[]

namespace ClassTable

/-! ## The classes every machine has, in the order they are made -/

def object : Nat := 0
def module : Nat := 1
def cls : Nat := 2
def kernel : Nat := 3
def integer : Nat := 4
def float : Nat := 5
def nilClass : Nat := 6
def trueClass : Nat := 7
def falseClass : Nat := 8
def symbol : Nat := 9
def string : Nat := 10
def array : Nat := 11
def dict : Nat := 12
def proc : Nat := 13
def binding : Nat := 14
def exception : Nat := 15
def fiber : Nat := 16
def enumerator : Nat := 17
def collector : Nat := 18

/-- The number of no class; it is beyond every table. -/
def missing : Nat := 0x100000000

def size (t : ClassTable) : Nat := t.modules.size

def entry (t : ClassTable) (id : Nat) : Module := t.modules.getD id default

def modify (t : ClassTable) (id : Nat) (f : Module → Module) : ClassTable :=
  ⟨t.modules.modify id f⟩

def push (t : ClassTable) (m : Module) : ClassTable := ⟨t.modules.push m⟩

/-! ## Hierarchy -/

/-- A class and its superclasses; no class has none. -/
def chain (t : ClassTable) (id : Nat) : List Nat :=
  if t.size ≤ id then [] else
  match (t.entry id).super with
  | some s => if s < id then id :: t.chain s else [id]
  | none => [id]
termination_by id

/-- The order of method resolution: each class followed by its modules, the last included first. -/
def ancestors (t : ClassTable) (id : Nat) : List Nat :=
  (t.chain id).flatMap fun c => c :: (t.entry c).includes.reverse

def isSubclass (t : ClassTable) (id other : Nat) : Bool := (t.ancestors id).contains other

/-- The class of a class object. -/
def classOf (t : ClassTable) (id : Nat) : Nat :=
  match (t.entry id).singleton with
  | some s => s
  | none => if (t.entry id).isModule then module else cls

/-- The class that a program is told: the first one up the chain that is no singleton class. -/
def visible (t : ClassTable) (id : Nat) : Nat :=
  ((t.chain id).find? fun c => (t.entry c).attached.isNone).getD id

def nameText (t : ClassTable) (idents : IdentTable) (id : Nat) : String :=
  match (t.entry id).attached with
  | some a => if a < id then "#<Class:" ++ t.nameText idents a ++ ">" else ""
  | none => idents.name (t.entry id).name
termination_by id

/-! ## Lookup -/

def findMethod? (t : ClassTable) (id : Nat) (name : Ident) : Option FnId :=
  (t.ancestors id).findSome? fun c => (t.entry c).methods.lookup name

/-- Looks a constant up in a class, its ancestors and the top level. -/
def findConst? (t : ClassTable) (id : Nat) (name : Ident) : Option Value :=
  (t.ancestors id ++ [object]).findSome? fun c => (t.entry c).consts.lookup name

/-! ## Instance variables -/

/-- The slot of an instance variable, if it has one in this class or above. -/
def ivarSlot? (t : ClassTable) (id : Nat) (ivar : Ident) : Option Nat :=
  (t.chain id).findSome? fun c => (t.entry c).ivarSlots.lookup ivar

def ivarCount (t : ClassTable) (id : Nat) : Nat :=
  (t.chain id).foldl (fun n c => n + (t.entry c).ivarSlots.length) 0

/-- The slot of an instance variable; a new one gets the number of those known so far. -/
def ivarSlot (t : ClassTable) (id : Nat) (ivar : Ident) : Nat × ClassTable :=
  match t.ivarSlot? id ivar with
  | some i => (i, t)
  | none =>
    let i := t.ivarCount id
    (i, t.modify id fun m => { m with ivarSlots := m.ivarSlots ++ [(ivar, i)] })

end ClassTable

end RubyMachine
