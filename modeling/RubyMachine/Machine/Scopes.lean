import RubyMachine.Machine.Frames
import RubyMachine.Machine.Inspect

/-! Scopes: frames that outlive their call, and the procs that close over them. -/

namespace RubyMachine.Exec

/-- The slot of the first control word of a scope with `n` local slots. -/
def scopeBase (n : Nat) : Nat := n + 2

/-- Sets the method link: that of the outer scope, or the scope itself when it has none. -/
def linkMethod (scope : Value) : Exec Unit := do
  let e := Env.heap scope
  let o ← e.outer
  if o.isNil then e.setWordAt Frame.methodWord scope
  else
    let _ ← asScope o
    e.setWordAt Frame.methodWord (← (Env.heap o).method)

def setFnWord (e : Env) (fn : FnId) : Exec Unit := do
  e.setWordAt Frame.fnWord (.ofInt fn.id.toNat)

/-- More words than this cannot be had at once. -/
def maxWords : Nat := 0x200000000000

/-- Makes a scope for code that has not run. Locals are nil, but a slot for surplus keywords is
marked as not set. -/
def newScope (self : Value) (fn : FnId) (outer : Value) : Exec Value := do
  if !outer.isNil && !outer.isRef then throw (.outerNotScope outer)
  let seq ← sequence fn
  let n := seq.slotCount
  let base := scopeBase n
  if maxWords < base + Frame.words then throw .fault
  let ref ← alloc (.scope ⟨Array.replicate (base + Frame.words) .nil, base, .nil⟩)
  update ref fun
    | .scope s => .scope { s with self := ref }
    | o => o
  let e := Env.heap ref
  e.setWordAt (-base : Int) self
  e.setWordAt (-1) self
  e.setWordAt Frame.envWord ref
  e.setWordAt Frame.flagWord (← Frame.flags n Frame.codeFlag)
  setFnWord e fn
  e.setWordAt Frame.outerWord outer
  e.setPc 0
  linkMethod ref
  if let some slot := seq.kwRestSlot then e.setLocalAt slot.toNat .uninit
  return ref

/-- Binds a scope to other code. Locals keep their values by slot and new ones are nil. -/
def rebindScope (scope : Value) (fn : FnId) : Exec Unit := do
  let seq ← sequence fn
  let old ← asScope scope
  let e := Env.heap scope
  let locals ← e.locals
  let self ← e.self
  let n := seq.slotCount
  let base := scopeBase n
  if maxWords < base + Frame.words then throw .fault
  let kept := (locals.take n).toArray
  let words := #[self] ++ kept ++ Array.replicate (n - kept.size) Value.nil ++ #[self] ++
    old.words.extract old.base (old.base + Frame.words)
  update scope fun
    | .scope s => .scope { s with words, base }
    | o => o
  e.setWordAt Frame.flagWord (← Frame.flags n Frame.codeFlag)
  setFnWord e fn
  e.setWordAt Frame.envWord scope
  linkMethod scope

/-- Copies a scope. The copy shares the outer scopes. -/
def dupScope (scope : Value) : Exec Value := do
  let s ← asScope scope
  let ref ← alloc (.scope { s with self := .nil })
  update ref fun
    | .scope s => .scope { s with self := ref }
    | o => o
  let e := Env.heap ref
  e.setWordAt Frame.envWord ref
  if (← e.method) == s.self then e.setWordAt Frame.methodWord ref
  return ref

/-! ## Frames that escape -/

/-- The words of a code frame on the stack as those of a scope. -/
def scopeWords (frame : Nat) (slots : Int) (self : Value) : Exec (Array Value) := do
  let low := (frame : Int) - slots - 1
  let s ← stack
  if low < 0 ∨ s.capacity < frame + Frame.words then throw .fault
  let words ← (List.range (slots.toNat + 1 + Frame.words)).mapM fun (i : Nat) => s.word? (low + i)
  return (self :: words).toArray

/-- Moves an environment, those it is nested in and those of its block to the heap, at most `fuel`
levels deep. The frame then refers to its copy, which the running code and its closures share. -/
def escape : Nat → Value → Exec Value
  | 0, _ => throw .fault
  | fuel + 1, env => do
    if env.isNil || env.isRef then return env
    let frame ← env.asFrame
    let ep ← word (frame + Frame.envWord)
    if ep.isRef then return ep
    let e := Env.stack frame
    let outer ← escape fuel (← e.outer)
    let slots ← e.slotCount
    let words ← scopeWords frame slots (← e.self)
    let ref ← alloc (.scope ⟨words, scopeBase slots.toNat, .nil⟩)
    update ref fun
      | .scope s => .scope { s with self := ref }
      | o => o
    let h := Env.heap ref
    h.setWordAt Frame.prevWord .nil
    h.setWordAt Frame.envWord ref
    h.setWordAt Frame.outerWord outer
    linkMethod ref
    let blk ← e.block
    if blk.isBlock then
      let (fn, home) := blk.toBlock
      let scope ← escape fuel (.frameAt home)
      let self ← (Env.heap (← asScope scope).self).self
      h.setWordAt Frame.blockWord (← alloc (.proc { body := .code fn, self, outer := scope }))
    else h.setWordAt Frame.blockWord blk
    setWord (frame + Frame.envWord) ref
    return ref

def moveToHeap (env : Value) : Exec Value := do escape ((← stack).capacity + 2) env

/-- A proc over code written in the environment `env`. -/
def makeProc (fn : FnId) (env : Value) : Exec Value := do
  let scope ← moveToHeap env
  let self ← (Env.heap (← asScope scope).self).self
  alloc (.proc { body := .code fn, self, outer := scope })

def newHostProc (name : String) : Exec Value := alloc (.proc { body := .host name })

/-- A block as a Proc; no block gives nil. -/
def blockToProc (b : Option Block) : Exec Value :=
  match b with
  | some (.literal fn frame) => makeProc fn (.frameAt frame)
  | some (.proc v) => return v
  | some (.symbol name) => alloc (.proc { body := .send name })
  | none => return .nil

/-- The block that the value of a block argument stands for. -/
def blockFromValue (v : Value) : Attempt (Option Block) := do
  if v.isNil then return none
  if v.isSymbol then return some (.symbol v.toSymbol)
  match ← asProc? v with
  | some _ => return some (.proc v)
  | none => Attempt.fail (.expectedProc (← className (← classOf v)))

/-- The environment of the code that called the running builtin, as a scope. -/
def newBinding : Attempt Value := do
  match ← callerFrame? with
  | some f =>
    let ref ← moveToHeap (.frameAt f)
    let _ ← asScope ref
    return ref
  | none => Attempt.fail .noFrameToBind

/-! ## Names of local slots -/

/-- Walks the scopes from `scope` outwards, at most `fuel` of them, until `f` finds something. -/
def searchScopes {α : Type} (f : Value → Code.Sequence → Exec (Option α)) : Nat → Value →
    Exec (Option α)
  | 0, _ => throw .fault
  | fuel + 1, scope => do
    let _ ← asScope scope
    let e := Env.heap scope
    match ← f scope (← sequence (← e.fn)) with
    | some a => return some a
    | none =>
      let o ← e.outer
      if o.isNil then return none else searchScopes f fuel o

/-- A bound on the number of scopes in a chain. -/
def scopeFuel : Exec Nat := return (← get).heap.pages.size * Heap.pageCells + 1

/-- The scopes from `scope` outwards with their code. -/
def scopeChain : Nat → Value → Exec (List (Value × Code.Sequence))
  | 0, _ => throw .fault
  | fuel + 1, scope => do
    let _ ← asScope scope
    let e := Env.heap scope
    let seq ← sequence (← e.fn)
    let o ← e.outer
    if o.isNil then return [(scope, seq)] else return (scope, seq) :: (← scopeChain fuel o)

/-- Names without a repetition, the first occurrence kept. -/
def distinct (names : List Ident) : List Ident := names.eraseDups

/-- The names of all locals visible from a scope, sorted. -/
def localNames (scope : Value) : Exec (List Ident) := do
  let chain ← scopeChain (← scopeFuel) scope
  let names := distinct (chain.flatMap fun (_, seq) => seq.locals.toList.filter (· != .none))
  let t := (← get).idents
  return names.mergeSort fun a b => t.name a ≤ t.name b

/-- The scope and slot of a local visible from a scope, the innermost that has the name. -/
def findLocal (scope name : Value) : Attempt (Value × Nat) := do
  if !name.isSymbol then Attempt.fail (.notSymbol (← inspect name))
  let id := name.toSymbol
  let chain ← searchScopes (fun s seq => return (seq.slotOf? id).map fun i => (s, i)) (← scopeFuel)
    scope
  match chain with
  | some r => return r
  | none => Attempt.fail (.undefinedLocal (← identName id) (← inspect scope))

/-- Whether a local of that name is visible. -/
def hasLocal (scope name : Value) : Exec Bool := return (← (findLocal scope name).run).isOk

end RubyMachine.Exec
