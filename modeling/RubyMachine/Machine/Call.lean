import RubyMachine.Machine.Control

/-! Calls of code, builtins and blocks. -/

namespace RubyMachine.Exec

/-- Binds arguments, pushes a code frame and starts the code. `outer` is the environment that a block
is nested in. -/
def invoke (fn : FnId) (seq : Code.Sequence) (self : Value) (low argc : Int) (kw : Value)
    (blk : Option Block) (outer : Value) (asBlock : Bool) : Exec Control := do
  let bind := if asBlock then bindBlock else bindMethod
  match ← (bind seq low argc kw blk).run with
  | .error f =>
    resize (low - 1)
    return .failure f
  | .ok () =>
    let caller ← frame?
    let callerWord ← frameValue
    push self
    let frame := (← stack).len
    let env := Value.frameAt frame
    let method ← if outer.isNil then pure env else (← envAt outer).method
    let lambda := !asBlock && seq.kind == .block
    push callerWord
    push env
    push (← Frame.flags seq.slotCount (Frame.codeFlag + if lambda then Frame.lambdaFlag else 0))
    push method
    push outer
    push (.ofInt 0)
    push (.ofInt fn.id.toNat)
    push (Block.word blk)
    setFrame (some frame)
    safepoint
    return .exec { fn, seq, frame, asBlock, caller, height := low - 1 } 0

def checkArity (arity : Arity) (given : Int) : Attempt Unit := do
  match arity.max with
  | none => if given < arity.min then Attempt.fail (.argumentMin given arity.min)
  | some high =>
    if given < arity.min ∨ given > high then
      Attempt.fail (.argumentsBetween given arity.min high)

/-- Reads or writes the instance variable of an attribute. -/
def callAttr (arity : Arity) (self : Value) (base argc : Int) (ivar : Ident) (write : Bool) :
    Attempt Value := do
  checkArity arity argc
  if write then
    let v ← (← stack).get base
    if ← setIvar self ivar v then return v
    else Attempt.fail (.ivarsOf (← inspect self))
  else getIvar self ivar

/-- Pushes the frame of a builtin, which drops it again when it is done. Gives the arguments. -/
def enterBuiltin (arity : Arity) (self : Value) (base argc : Int) (kw : Value) (blk : Option Block) :
    Exec (Except Failure (List Value)) := do
  let argc ← if kw.isNil then pure argc else do
    push kw
    pure (argc + 1)
  match ← (checkArity arity argc).run with
  | .error f =>
    resize (base - 1)
    return .error f
  | .ok () =>
    let caller ← frame?
    let callerWord ← frameValue
    push self
    let frame := (← stack).len
    push callerWord
    push .nil
    push (← Frame.flags argc 0)
    setFrame (some frame)
    let guarded ← match blk with
      | some (.proc v) => do
        protect v
        pure true
      | _ => pure false
    pushKont (.native caller (base - 1) guarded)
    return .ok (← (← stack).slice base (base + argc))

/-- Runs a proc that is no code. -/
def callNative (body : ProcBody) (args : List Value) : Exec Control := do
  match body with
  | .host name => return .host { name, isMethod := false, self := .nil, args, block := none }
  | .send name =>
    match args with
    | [] => return .fail .noReceiver
    | receiver :: args => send name receiver args .nil none
  | .emit => suspend (← pack args)
  | .code _ => throw .fault

/-- Calls a block. The slot below the arguments receives the block's own receiver. -/
def enterBlock (blk : Block) (base argc : Int) : Exec Control := do
  match blk with
  | .literal fn frame =>
    let seq ← sequence fn
    let outer := Value.frameAt frame
    let self ← (← envAt outer).self
    updateStack (·.set (base - 1) self)
    invoke fn seq self base argc .nil none outer true
  | .proc v =>
    match ← asProc? v with
    | none =>
      resize (base - 1)
      return .fail .notProc
    | some p =>
      match p.body with
      | .code fn =>
        let seq ← sequence fn
        updateStack (·.set (base - 1) p.self)
        invoke fn seq p.self base argc .nil none p.outer (!p.lambda)
      | body =>
        let args ← (← stack).slice base (base + argc)
        pushKont (.drop (base - 1))
        callNative body args
  | .symbol name =>
    if argc = 0 then
      resize (base - 1)
      return .fail .noReceiver
    else
      discard (takeFromStack (·.remove (base - 1)))
      let receiver ← (← stack).get (base - 1)
      match ← findMethod? (← classOf receiver) name with
      | none =>
        resize (base - 1)
        return .failure (← noMethod name receiver)
      | some fn => return .call fn receiver base (argc - 1) .nil none

end RubyMachine.Exec
