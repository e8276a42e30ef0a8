import RubyMachine.Machine.State

/-! Objects behind references. -/

namespace RubyMachine.Exec

/-- The object a value refers to. -/
def deref (v : Value) : Exec Object := do
  let r ← v.asRef
  (← get).heap.read r

/-- The object a value refers to, if it is a reference at all. -/
def deref? (v : Value) : Exec (Option Object) := do
  if v.isRef then return some (← deref v) else return none

def alloc (o : Object) : Exec Value := onHeap (Heap.alloc o)

/-- Changes an object that was reached before. -/
def update (v : Value) (f : Object → Object) : Exec Unit :=
  onHeap (modify fun h => h.update v.toRef f)

/-! ## Kinds -/

def asArray? (v : Value) : Exec (Option (Array Value)) := do
  match ← deref? v with
  | some (.array a) => return some a
  | _ => return none

def asString? (v : Value) : Exec (Option String) := do
  match ← deref? v with
  | some (.string s) => return some s
  | _ => return none

def asDict? (v : Value) : Exec (Option Dict) := do
  match ← deref? v with
  | some (.dict d) => return some d
  | _ => return none

def asProc? (v : Value) : Exec (Option Proc) := do
  match ← deref? v with
  | some (.proc p) => return some p
  | _ => return none

def asSplat? (v : Value) : Exec (Option Value) := do
  match ← deref? v with
  | some (.splat w) => return some w
  | _ => return none

def asModule? (v : Value) : Exec (Option Nat) := do
  match ← deref? v with
  | some (.module m) => return some m
  | _ => return none

def asFiber? (v : Value) : Exec (Option Nat) := do
  match ← deref? v with
  | some (.fiber f) => return some f
  | _ => return none

def asEnumerator? (v : Value) : Exec (Option Enumerator) := do
  match ← deref? v with
  | some (.enumerator e) => return some e
  | _ => return none

/-- What a receiver of the wrong kind leads to: the machine looks into an object that is not there. -/
def demand {α : Type} (x : Option α) : Exec α :=
  match x with
  | some a => return a
  | none => throw .fault

def arrayOf (v : Value) : Exec (Array Value) := do demand (← asArray? v)

def stringOf (v : Value) : Exec String := do demand (← asString? v)

def dictOf (v : Value) : Exec Dict := do demand (← asDict? v)

def procOf (v : Value) : Exec Proc := do demand (← asProc? v)

def moduleOf (v : Value) : Exec Nat := do demand (← asModule? v)

def fiberOf (v : Value) : Exec Nat := do demand (← asFiber? v)

def enumeratorOf (v : Value) : Exec Enumerator := do demand (← asEnumerator? v)

def asScope (v : Value) : Exec Scope := do
  match ← deref v with
  | .scope s => return s
  | _ => throw (.notScope v)

/-! ## New objects -/

def newArray (vs : List Value) : Exec Value := alloc (.array vs.toArray)

def newString (s : String) : Exec Value := alloc (.string s)

def newDict : Exec Value := alloc (.dict {})

def newObject (cls : Nat) : Exec Value := alloc (.instance cls #[])

/-- An argument list as one value: nil, the value itself, or an array. -/
def pack (vs : List Value) : Exec Value :=
  match vs with
  | [] => return .nil
  | [v] => return v
  | vs => newArray vs

/-! ## Dictionaries -/

def dictKey (v : Value) : Exec DictKey := do
  match ← asString? v with
  | some s => return .text s
  | none => return .word v

def dictFind? (d : Dict) (k : Value) : Exec (Option Value) := return d.find? (← dictKey k)

/-- Stores an entry in the dictionary that `d` refers to. -/
def dictInsert (d k v : Value) : Exec Unit := do
  let id ← dictKey k
  update d fun
    | .dict entries => .dict (entries.insert id k v)
    | o => o

/-! ## Classes -/

/-- The class that methods of an object are looked up in. -/
def objectClass (m : Machine) : Object → Nat
  | .instance c _ => c
  | .array _ => ClassTable.array
  | .string _ => ClassTable.string
  | .dict _ => ClassTable.dict
  | .splat _ => ClassTable.object
  | .exception _ => ClassTable.exception
  | .proc _ => ClassTable.proc
  | .scope _ => ClassTable.binding
  | .fiber _ => ClassTable.fiber
  | .enumerator _ => ClassTable.enumerator
  | .module c => m.classes.classOf c

/-- The class that methods of a value are looked up in. -/
def classOf (v : Value) : Exec Nat := do
  if v.isFixnum then return ClassTable.integer
  else if v.isFloat then return ClassTable.float
  else if v == .nil then return ClassTable.nilClass
  else if v == .true then return ClassTable.trueClass
  else if v == .false then return ClassTable.falseClass
  else if v.isSymbol then return ClassTable.symbol
  else if v.isRef then return objectClass (← get) (← deref v)
  else return ClassTable.object

/-- The name of a class. A class that is not there has none to look for. -/
def className (c : Nat) : Exec String := do
  let m ← get
  if c = ClassTable.missing then throw .fault
  return m.classes.nameText m.idents c

/-! ## Instance variables -/

def asInstance? (v : Value) : Exec (Option (Array Value)) := do
  match ← deref? v with
  | some (.instance _ slots) => return some slots
  | _ => return none

/-- A slot of an instance, nil where it was never set. -/
def slotOf (v : Value) (i : Int) : Exec Value := do
  let slots ← demand (← asInstance? v)
  if i < 0 then throw .fault
  return Object.slotAt slots i.toNat

/-- Sets a slot of an instance that was reached before. -/
def setSlotOf (v : Value) (i : Int) (x : Value) : Exec Unit := do
  if i < 0 then throw .fault
  update v fun
    | .instance c slots => .instance c (Object.setSlot slots i.toNat x)
    | o => o

def ivarSlot (cls : Nat) (ivar : Ident) : Exec Nat := do
  if cls = ClassTable.missing then throw .fault
  modifyGet fun m =>
    let (i, t) := m.classes.ivarSlot cls ivar
    (i, { m with classes := t })

def getIvar (self : Value) (name : Ident) : Exec Value := do
  match ← deref? self with
  | some (.instance c slots) => return Object.slotAt slots (← ivarSlot c name)
  | some (.module c) => return ((← get).classes.entry c).ivars.lookup name |>.getD .nil
  | _ => return .nil

/-- Sets an instance variable; tells whether the receiver can have one. -/
def setIvar (self : Value) (name : Ident) (v : Value) : Exec Bool := do
  match ← deref? self with
  | some (.instance c _) =>
    setSlotOf self (← ivarSlot c name) v
    return true
  | some (.module c) =>
    modify fun m => { m with
      classes := m.classes.modify c fun k => { k with ivars := bindName name v k.ivars } }
    return true
  | _ => return false

/-! ## Global variables -/

def getGlobal (name : Ident) : Exec Value := return ((← get).globals.lookup name).getD .nil

def setGlobal (name : Ident) (v : Value) : Exec Unit :=
  modify fun m => { m with globals := bindName name v m.globals }

end RubyMachine.Exec
