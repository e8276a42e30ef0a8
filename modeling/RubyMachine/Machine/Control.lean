import RubyMachine.Machine.Arguments
import RubyMachine.Machine.Classes
import RubyMachine.Machine.Collector
import RubyMachine.Number.Real

/-! What the machine does next, and how calls are set up. -/

namespace RubyMachine

/-- A call that only the host can answer. -/
structure HostCall where
  name : String
  /-- Whether a method was called, not a proc. -/
  isMethod : Bool
  self : Value
  args : List Value
  block : Option Block

/-- What the machine does next. -/
inductive Control where
  | exec (a : Activation) (pc : Int)
  /-- Calls a function. The receiver is below slot `base`, the arguments are the top of the stack. -/
  | call (fn : FnId) (self : Value) (base argc : Int) (kw : Value) (block : Option Block)
  /-- Calls a block. Below slot `base` is a slot for its receiver. -/
  | yield (block : Block) (base argc : Int)
  | deliver (r : Except Failure Value)
  | host (call : HostCall)

namespace Control

def value (v : Value) : Control := .deliver (.ok v)

def failure (f : Failure) : Control := .deliver (.error f)

def fail (c : Cause) : Control := .failure (.of c)

end Control

namespace Exec

def attempt (x : Attempt Control) : Exec Control := do
  match ← x.run with
  | .ok c => return c
  | .error f => return .failure f

/-! ## Calls -/

def pushCall (receiver : Value) (args : List Value) : Exec Int := do
  push receiver
  let base ← height
  extend args
  return base

/-- With no frame active the call comes from the host, and no non-local exit gets past it. -/
def markBoundary : Exec Unit := do
  if (← frame?).isNone then pushKont .boundary

def noMethod (name : Ident) (receiver : Value) : Exec Failure :=
  return .of (.undefinedMethod (← identName name) (← inspect receiver))

/-- Calls a method by name. -/
def send (name : Ident) (receiver : Value) (args : List Value) (kw : Value) (blk : Option Block) :
    Exec Control := do
  match ← findMethod? (← classOf receiver) name with
  | none => return .failure (← noMethod name receiver)
  | some fn =>
    markBoundary
    let base ← pushCall receiver args
    return .call fn receiver base args.length kw blk

def callDirect (fn : FnId) (receiver : Value) (args : List Value) : Exec Control := do
  let base ← pushCall receiver args
  return .call fn receiver base args.length .nil none

def callBlock (blk : Option Block) (args : List Value) : Exec Control := do
  match blk with
  | none => return .fail .noBlock
  | some b =>
    markBoundary
    let base ← pushCall .nil args
    return .yield b base args.length

/-! ## Operators -/

/-- How an operator comes to its value: at once, or by sending a method whose value may have to be
negated. -/
inductive Operation where
  | done (r : Except Failure Value)
  | send (name : Ident) (negated : Bool)

/-- A number as left operand of something that is no number. -/
def mixedOperation (op : Operator) (lhs rhs : Value) : Exec Operation := do
  match op with
  | .eq | .teq => return .done (.ok .false)
  | .ne => return .done (.ok .true)
  | .gt | .ge | .lt | .le =>
    return .done (.error (.of (.comparison (← className (← classOf lhs)) (← inspect rhs))))
  | .cmp => return .done (.ok .nil)
  | _ =>
    return .done (.error (.of (.coercion (← className (← classOf rhs)) (← className (← classOf lhs)))))

/-- Numbers are computed with at once; other left operands are sent the operator's method. -/
def operation (op : Operator) (lhs rhs : Value) : Exec Operation := do
  if lhs.isFixnum && rhs.isFixnum then
    return .done (Number.integerOp op (.ofInt lhs.toInt) (.ofInt rhs.toInt) Number.inversePower)
  else if lhs.isNumeric && rhs.isNumeric && !op.isBitwise then
    return .done (.ok (Number.realOp op (Number.toReal lhs) (Number.toReal rhs)))
  else if lhs.isNumeric then mixedOperation op lhs rhs
  else match op with
    | .eq | .teq => if lhs == rhs then return .done (.ok .true) else return .send op.method false
    | .ne => return .send .eq true
    | op => return .send op.method false

def sendOperator (name : Ident) (negated : Bool) (lhs rhs : Value) : Exec Control := do
  if negated then pushKont .negate
  send name lhs [rhs] .nil none

/-! ## Fibers -/

/-- Makes a fiber that runs a proc or an iteration. -/
def newFiber (body : Value) (iteration : Option Iteration) : Exec Value := do
  let id := (← get).fibers.size
  let self ← alloc (.fiber id)
  modify fun m => { m with fibers := m.fibers.push { self, body, iteration } }
  return self

def dupFiber (id : Nat) : Exec Value := do
  let f ← fiber id
  newFiber f.body f.iteration

def enterFiber (id : Nat) (c : Context) : Exec Unit := do
  modifyFiber id fun f => { f with state := .running, active := true, context := none }
  modify fun m => { m with waiting := m.context :: m.waiting, context := c }

def leaveFiber (id : Nat) : Exec Unit := do
  modifyFiber id fun f => { f with active := false }
  match (← get).waiting with
  | c :: rest => modify fun m => { m with context := c, waiting := rest }
  | [] => throw .switchOrder

/-- What a fiber does when it is first resumed. -/
def startFiber (f : Fiber) (args : List Value) : Exec Control := do
  match f.iteration with
  | none =>
    pushKont .fiberBody
    callBlock (some (.proc f.body)) args
  | some i =>
    pushKont .fiberIteration
    let emit ← alloc (.proc { body := .emit })
    send i.method i.receiver i.args .nil (some (.proc emit))

def resumeFiber (id : Nat) (args : List Value) : Exec Control := do
  let f ← demand (← get).fibers[id]?
  if f.state = .dead then return .fail .deadFiber
  if f.active then return .fail .currentFiber
  match f.context with
  | some c =>
    enterFiber id c
    return .value (← pack args)
  | none =>
    let stack ← modifyGet fun m =>
      let (s, p) := m.pool.take
      (s, { m with pool := p })
    enterFiber id { stack, fiber := some id }
    startFiber f args

def suspend (v : Value) : Exec Control := do
  let c := (← get).context
  match c.fiber with
  | none => return .fail .yieldFromRoot
  | some id =>
    modifyFiber id fun f => { f with context := some c, lastYield := some v }
    leaveFiber id
    return .value v

def finishFiber (r : Except Failure Value) : Exec Control := do
  let c := (← get).context
  match c.fiber with
  | none => throw .switchOrder
  | some id =>
    leaveFiber id
    modifyFiber id fun f => { f with state := .dead }
    putStack c.stack
    match r with
    | .ok v => return .value v
    | .error f => return .failure f.escape

/-- Abandons a fiber that is running. Its resumer gets the value that was yielded last; a fiber that
never yielded is over. Only the innermost fiber can be left. -/
def abandonRunning (id : Nat) : Exec Control := do
  let c := (← get).context
  if c.fiber ≠ some id then throw .switchOrder
  let f ← fiber id
  leaveFiber id
  match f.lastYield with
  | some v =>
    modifyFiber id fun f => { f with state := .dead, context := some { c with konts := [] } }
    return .value v
  | none =>
    modifyFiber id fun f => { f with state := .dead }
    putStack c.stack
    return .value .zero

/-! ## Enumerators -/

def newEnumerator (receiver : Value) (method : Ident) (args : List Value) : Exec Value :=
  alloc (.enumerator { iteration := ⟨receiver, method, args⟩ })

def setEnumeratorFiber (e : Value) (fiber : Value) : Exec Unit :=
  update e fun
    | .enumerator e => .enumerator { e with fiber }
    | o => o

def enumeratorNext (self : Value) (e : Enumerator) : Exec Control := do
  let f ← if e.fiber.isNil then do
      let f ← newFiber .nil (some e.iteration)
      setEnumeratorFiber self f
      pure f
    else pure e.fiber
  let id ← fiberOf f
  if (← fiber id).state = .dead then return .fail .exhausted
  resumeFiber id []

def pull (d : Drive) : Exec Control := do
  pushKont (.pull d)
  resumeFiber d.fiber []

/-- Runs an iteration on a fiber of its own and passes each value to a block. -/
def drive (e : Enumerator) (block : Block) (mode : DriveMode) : Exec Control := do
  let f ← newFiber .nil (some e.iteration)
  protect f
  pull ⟨← fiberOf f, block, mode⟩

/-- Ends an enumeration: its fiber is given up and what it kept alive let go. -/
def endDrive (d : Drive) : Exec Unit := do
  releaseFiber d.fiber
  release
  match d.mode with
  | .map _ => release
  | _ => return ()

def feed (d : Drive) (v : Value) : Exec Control := do
  match d.mode with
  | .withIndex i =>
    match Number.fixnum i with
    | .error f =>
      endDrive d
      return .failure f
    | .ok index =>
      pushKont (.feed { d with mode := .withIndex (i + 1) })
      callBlock (some d.block) [v, index]
  | _ =>
    pushKont (.feed d)
    callBlock (some d.block) [v]

end Exec

end RubyMachine
