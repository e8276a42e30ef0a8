import RubyMachine.Heap.Collect
import RubyMachine.Machine.Objects

/-! Collections: what the machine can reach stays, the rest is freed. A freed fiber is abandoned and its
stack given back. -/

namespace RubyMachine

/-! ## What is reached -/

namespace Context

def refs (c : Context) : List Value := c.stack.toList ++ c.temps.reverse

end Context

namespace Iteration

def refs (i : Iteration) : List Value := i.receiver :: i.args

end Iteration

namespace Fiber

/-- A dead fiber keeps its body but not its stack. -/
def refs (f : Fiber) : List Value :=
  f.body :: (f.iteration.map Iteration.refs).getD [] ++
    (if f.state = .dead then [] else (f.context.map Context.refs).getD [])

end Fiber

namespace Module

def refs (t : ClassTable) (m : Module) : List Value :=
  let self (id : Nat) := (t.entry id).self
  m.self :: m.super.toList.map self ++ m.includes.map self ++ m.singleton.toList.map self ++
    m.attached.toList.map self ++ m.consts.map Prod.snd ++ m.ivars.map Prod.snd

end Module

namespace Object

/-- The values that an object refers to, in the order they are marked. -/
def refs (t : ClassTable) (fibers : Array Fiber) : Object → List Value
  | .instance c slots => (t.entry c).self :: slots.toList
  | .array elems => elems.toList
  | .string _ => []
  | .dict d => d.toList.flatMap fun (k, v) => [k, v]
  | .splat v => [v]
  | .exception f => [f.value]
  | .proc p => [p.self, p.outer]
  | .scope s => s.words.toList
  | .fiber f => (fibers.getD f default).refs
  | .enumerator e => e.iteration.refs ++ [e.fiber]
  | .module c => (t.entry c).refs t

end Object

namespace Function

/-- The literals and cached constants of a function. -/
def refs (f : Function) : List Value :=
  match f.body with
  | .code seq => seq.consts.toList ++ f.constSites.toList.map Cache.Const.value
  | _ => []

end Function

namespace Machine

/-- What is reached without going through another object. -/
def roots (m : Machine) : List Value :=
  (m.classes.entry ClassTable.object).self :: m.mainObject :: m.globals.map Prod.snd ++
    m.functions.functions.toList.flatMap Function.refs ++
    (m.context :: m.waiting).reverse.flatMap Context.refs

end Machine

/-! ## Giving up fibers -/

/-- The fibers that a suspended thread pulls values from, the innermost first. -/
def drivenFibers (konts : List Kont) : List Nat :=
  konts.filterMap fun
    | .pull d | .feed d => some d.fiber
    | _ => none

/-- Something that is left to be done when fibers are given up. -/
inductive Disposal where
  | fiber (id : Nat)
  | stack (s : Stack)

namespace Exec

def fiber (id : Nat) : Exec Fiber := return (← get).fibers.getD id default

def modifyFiber (id : Nat) (f : Fiber → Fiber) : Exec Unit :=
  modify fun m => { m with fibers := m.fibers.modify id f }

def putStack (s : Stack) : Exec Unit := modify fun m => { m with pool := m.pool.put s }

/-- Works a list of disposals off. A suspended fiber first gives up the fibers it pulls values from,
then its own stack. -/
def dispose : Nat → List Disposal → Exec Unit
  | 0, _ => return ()
  | _, [] => return ()
  | fuel + 1, .stack s :: rest => do
    putStack s
    dispose fuel rest
  | fuel + 1, .fiber id :: rest => do
    let f ← fiber id
    modifyFiber id fun f => { f with state := .dead, context := none }
    match f.context with
    | some c => dispose fuel ((drivenFibers c.konts).map .fiber ++ .stack c.stack :: rest)
    | none => dispose fuel rest

/-- Every fiber gives up its stack once, so this many disposals are enough. -/
def disposalFuel : Exec Nat := do
  let work (f : Fiber) : Nat := 1 + (f.context.map fun c => c.konts.length + 1).getD 0
  return (← get).fibers.foldl (fun n f => n + work f) 1

/-- Abandons a fiber that is not running. -/
def releaseFiber (id : Nat) : Exec Unit := do dispose (← disposalFuel) [.fiber id]

/-! ## Collections -/

/-- Whether a cell holds an instance without a class, which cannot be marked. -/
def isOrphan (c : Cell Object) : Bool :=
  c.marked && match c.obj with
    | some (.instance cls _) => cls == ClassTable.missing
    | _ => false

def collect : Exec Collection := do
  onHeap (modify Heap.clearMarks)
  let classes := (← get).classes
  let fibers := (← get).fibers
  let roots := (← get).roots
  onHeap (Heap.markValues (Object.refs classes fibers) roots)
  if (← get).heap.pages.any fun p => p.cells.any isOrphan then throw .fault
  let marked := (← get).heap.markCount
  let freed ← onHeap Heap.sweep
  freed.forM fun
    | .fiber id => releaseFiber id
    | _ => return ()
  onHeap (modify fun h => { h with pending := false })
  let c : Collection := ⟨marked, freed.length, (← get).heap.live⟩
  modify fun m => { m with collections := c :: m.collections }
  return c

/-- Runs a collection that was asked for. -/
def safepoint : Exec Unit := do
  let h := (← get).heap
  if h.pending && h.enabled then discard collect

end Exec

end RubyMachine
