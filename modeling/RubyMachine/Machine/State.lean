import RubyMachine.Function.Basic
import RubyMachine.Heap.Basic
import RubyMachine.Object.Basic
import RubyMachine.Stack

/-! The state of a machine.

Calls do not nest in the machine's own code. What is left to do after a call is written down as a list
of continuations, so a fiber can be suspended anywhere by putting its list aside. -/

namespace RubyMachine

structure Options where
  stackSize : Int := 8192
  debug : Bool := false
  /-- Whether collections run without being asked for. -/
  collect : Bool := true
  threshold : Int := 4096
  fiberPool : Int := 16

/-- Sizes that make no sense give way to the defaults. -/
def Options.sanitize (o : Options) : Options :=
  { o with
    stackSize := if o.stackSize ≤ 0 then 8192 else o.stackSize
    threshold := if o.threshold ≤ 0 then 4096 else o.threshold
    fiberPool := max 0 o.fiberPool }

/-! ## Continuations -/

structure Activation where
  fn : FnId
  seq : Code.Sequence
  frame : Nat
  /-- Whether it was called as a block, not as a method or lambda. -/
  asBlock : Bool
  caller : Option Nat
  /-- The stack length to go back to. -/
  height : Int

inductive Pending where
  | push
  /-- The value of a send. With `hasBlock` the send ends when its block breaks. -/
  | send (hasBlock discard : Bool)
  /-- Goes on at `dest` when the value is false. Code that ends early may have no place to go to. -/
  | branch (dest : Option Int)

inductive DriveMode where
  | each
  | map (out : Value)
  | withIndex (next : Int)

/-- An enumeration that pulls values out of a fiber and passes them to a block. -/
structure Drive where
  fiber : Nat
  block : Block
  mode : DriveMode

/-- What is to be done with the outcome of a call. -/
inductive Kont where
  /-- Goes on with an instruction sequence at `next`; the call was made at `pc`. -/
  | activation (a : Activation) (pc next : Int) (pending : Pending)
  /-- Drops the frame of a builtin; with `guarded` also the root for its block. -/
  | native (caller : Option Nat) (height : Int) (guarded : Bool)
  | drop (height : Int)
  /-- A call by the host: a non-local exit ends here. -/
  | boundary
  | negate
  | each (self : Value) (block : Block) (next : Nat)
  | map (self : Value) (block : Block) (out : Value) (next : Nat)
  | times (count next : Int) (self : Value) (block : Block)
  | loop (block : Block)
  | construct (object : Value)
  | puts (value : Value) (rest : List Value)
  | append (self value : Value)
  | equal (self other : Value) (count next : Nat)
  | pull (d : Drive)
  | feed (d : Drive)
  | fiberBody
  /-- Ends the fiber of an enumerator, which has no more values. -/
  | fiberIteration

structure Context where
  stack : Stack
  frame : Option Nat := none
  /-- The fiber that is run; none for the root. -/
  fiber : Option Nat := none
  /-- Values held outside of the stack, the last one first. -/
  temps : List Value := []
  konts : List Kont := []

/-! ## Fibers -/

inductive FiberState where
  | created
  | running
  | dead
  deriving DecidableEq

def FiberState.text : FiberState → String
  | created => "created"
  | running => "running"
  | dead => "dead"

structure Fiber where
  self : Value
  body : Value
  iteration : Option Iteration
  state : FiberState := .created
  /-- Whether it has been resumed and has not come back. -/
  active : Bool := false
  /-- Where it stopped; none before the start, while it is active and after its stack was given back. -/
  context : Option Context := none
  lastYield : Option Value := none

instance : Inhabited Fiber := ⟨{ self := .nil, body := .nil, iteration := none }⟩

/-- Stacks of finished fibers, the one put there last first. -/
structure StackPool where
  free : List Stack := []
  capacity : Nat
  stackSize : Int
  made : Nat := 1
  taken : UInt64 := 0
  returned : UInt64 := 0
  reused : UInt64 := 0

namespace StackPool

def take (p : StackPool) : Stack × StackPool :=
  match p.free with
  | s :: rest => (s, { p with free := rest, taken := p.taken + 1, reused := p.reused + 1 })
  | [] => (.empty p.stackSize p.made, { p with made := p.made + 1, taken := p.taken + 1 })

def put (p : StackPool) (s : Stack) : StackPool :=
  { p with
    returned := p.returned + 1
    free := if p.free.length < p.capacity then s.reset :: p.free else p.free }

structure Stats where
  started : UInt64 := 0
  released : UInt64 := 0
  reused : UInt64 := 0
  pooled : Int := 0
  deriving Inhabited

def stats (p : StackPool) : Stats := ⟨p.taken, p.returned, p.reused, p.free.length⟩

end StackPool

/-! ## The machine -/

/-- A remembered method lookup, also of a method that was not found. -/
structure MethodLookup where
  cls : Nat
  name : Ident
  version : UInt64
  result : Option FnId

structure MethodCache where
  entries : List MethodLookup := []
  hits : Nat := 0
  misses : Nat := 0

structure Collection where
  marked : Int := 0
  swept : Int := 0
  live : Int := 0
  deriving Inhabited

structure Machine where
  options : Options
  idents : IdentTable := .empty
  heap : Heap Object
  classes : ClassTable := {}
  functions : FunctionTable := {}
  /-- Changes with every change of a method, constant or include list. -/
  version : UInt64 := 0
  lookups : MethodCache := {}
  globals : List (Ident × Value) := []
  pool : StackPool
  fibers : Array Fiber := #[]
  context : Context
  /-- The threads that wait for a fiber to come back, the innermost first. -/
  waiting : List Context := []
  mainObject : Value := .nil
  collections : List Collection := []
  output : String := ""

/-- Computations on a machine. A defect ends one and keeps what was changed before it. -/
abbrev Exec := EStateM Defect Machine

/-- Computations that may also fail in the program's own terms. -/
abbrev Attempt := ExceptT Failure Exec

def Attempt.fail {α : Type} (c : Cause) : Attempt α := throw (Failure.of c)

namespace Machine

def blank (options : Options) : Machine :=
  let o := options.sanitize
  { options := o
    heap := (Heap.new o.threshold o.debug).setEnabled o.collect
    pool := { capacity := o.fiberPool.toNat, stackSize := o.stackSize }
    context := { stack := .empty o.stackSize } }

end Machine

namespace Exec

def ofExcept {α : Type} (x : Except Defect α) : Exec α :=
  match x with
  | .ok a => pure a
  | .error d => throw d

instance : MonadLift (Except Defect) Exec := ⟨ofExcept⟩

/-! ## Parts of the machine -/

/-- Runs a computation on the heap, which is taken out of the machine meanwhile. -/
def onHeap {α : Type} (x : HeapM Object α) : Exec α := fun m =>
  let heap := m.heap
  let m := { m with heap := .new 1 false }
  match x heap with
  | .ok a h => .ok a { m with heap := h }
  | .error d h => .error d { m with heap := h }

def stack : Exec Stack := return (← get).context.stack

def setStack (s : Stack) : Exec Unit := modify fun m => { m with context.stack := s }

def updateStack (f : Stack → Except Defect Stack) : Exec Unit := do setStack (← f (← stack))

def takeFromStack {α : Type} (f : Stack → Except Defect (α × Stack)) : Exec α := do
  let (a, s) ← f (← stack)
  setStack s
  return a

def modifyStack (f : Stack → Stack) : Exec Unit :=
  modify fun m => { m with context.stack := f m.context.stack }

/-! The operations that run most do not keep the stack while they change it. -/

def push (v : Value) : Exec Unit := do
  let s ← stack
  s.checkCapacity (s.len + 1)
  modifyStack (·.append v)

def pop : Exec Value := do
  let v ← (← stack).top
  modifyStack fun s => s.cut (s.len - 1) .nil
  return v

def popN (n : Int) : Exec (List Value) := do
  let vs ← (← stack).topN n
  modifyStack fun s => s.cut (s.len - n.toNat) .zero
  return vs

def height : Exec Int := return (← stack).len

def grow (n : Int) : Exec Unit := do
  let s ← stack
  s.checkCapacity (s.len + n)
  if 0 ≤ n then modifyStack (·.appendAll (List.replicate n.toNat .nil))
  else updateStack (·.grow n)

def resize (n : Int) : Exec Unit := do
  let len := (← stack).len
  if n < 0 then throw (.stackLength n)
  else if (len : Int) < n then grow (n - len)
  else modifyStack (·.cut n.toNat .zero)

def extend (vs : List Value) : Exec Unit := do
  let s ← stack
  s.checkCapacity (s.len + vs.length)
  modifyStack (·.appendAll vs)

def frame? : Exec (Option Nat) := return (← get).context.frame

def setFrame (f : Option Nat) : Exec Unit := modify fun m => { m with context.frame := f }

/-- Keeps a value alive until `release`. -/
def protect (v : Value) : Exec Unit :=
  modify fun m => { m with context.temps := v :: m.context.temps }

def release : Exec Unit := modify fun m => { m with context.temps := m.context.temps.tail }

def pushKont (k : Kont) : Exec Unit := modify fun m => { m with context.konts := k :: m.context.konts }

def sequence (fn : FnId) : Exec Code.Sequence := do (← get).functions.sequence fn

def function (fn : FnId) : Exec Function := do (← get).functions.get fn

def intern (name : String) : Exec Ident := modifyGet fun m =>
  let (i, t) := m.idents.intern name
  (i, { m with idents := t })

def identName (i : Ident) : Exec String := return (← get).idents.name i

def write (text : String) : Exec Unit := modify fun m => { m with output := m.output ++ text }

end Exec

end RubyMachine
