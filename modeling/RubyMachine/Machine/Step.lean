import RubyMachine.Machine.Instructions

/-! One step of the machine, and runs of many steps. -/

namespace RubyMachine

namespace Exec

/-! ## Activations -/

/-- Ends an activation. A method takes the return that a block in it made as its own. -/
def leave (a : Activation) (r : Except Failure Value) : Exec Control := do
  let r ← match r with
    | .error f =>
      if f.kind = .methodReturn ∧ !a.asBlock then
        if ← sameFrame f.target a.frame then pure (.ok f.value) else pure r
      else pure r
    | .ok _ => pure r
  setFrame a.caller
  resize a.height
  return .deliver r

/-- Where a failure of the instruction at `pc` is rescued. Signals and defects of the code are not. -/
def handler? (seq : Code.Sequence) (pc : Int) (f : Failure) : Option Int :=
  if f.kind.isControl || f.kind == .internal then none
  else (seq.handlers.find? fun h => h.kind == .rescue && h.start ≤ pc && pc < h.stop).map
    Code.Handler.dest

/-- Goes to the handler of a failure, which finds the exception on the stack, or ends the
activation. -/
def raise (a : Activation) (pc : Int) (f : Failure) : Exec Control := do
  match handler? a.seq pc f with
  | some dest =>
    resize (a.frame + Frame.words)
    push (← alloc (.exception f))
    return .exec a dest
  | none => leave a (.error f)

def conclude (a : Activation) (pc next : Int) : Effect → Exec Control
  | .next => return .exec a next
  | .jump d => return .exec a (next + d)
  | .leave r => leave a r
  | .wait pending call => do
    pushKont (.activation a pc next pending)
    call

/-- Code that ends without a return gives what is on the stack of its frame. -/
def fallOff (a : Activation) : Exec Control := do
  if (← height) > a.frame + Frame.words then leave a (.ok (← (← stack).top))
  else leave a (.ok .nil)

def exec (a : Activation) (pc : Int) : Exec Control := do
  if (a.seq.code.size : Int) ≤ pc then fallOff a
  else if pc < 0 then throw .fault
  else
    let byte := a.seq.code.getD pc.toNat 0
    match Code.Opcode.ofByte? byte with
    | none => throw (.badOpcode byte pc)
    | some op =>
      let site : Site := ⟨a, pc.toNat, op⟩
      match ← site.perform.run with
      | .ok effect => conclude a pc (pc + op.size) effect
      | .error f => raise a pc f

/-! ## Calls -/

def call (fn : FnId) (self : Value) (base argc : Int) (kw : Value) (blk : Option Block) :
    Exec Control := do
  let f ← function fn
  let attr (ivar : Ident) (write : Bool) : Exec Control := do
    let r ← (callAttr f.arity self base argc ivar write).run
    resize (base - 1)
    return .deliver r
  match f.body with
  | .code seq => invoke fn seq self base argc kw blk .nil false
  | .builtin b =>
    match ← enterBuiltin f.arity self base argc kw blk with
    | .ok args => attempt (b.run self args blk)
    | .error e => return .failure e
  | .attrReader ivar => attr ivar false
  | .attrWriter ivar => attr ivar true

/-! ## Continuations -/

def resumeActivation (a : Activation) (pc next : Int) (p : Pending) (r : Except Failure Value) :
    Exec Control := do
  match p, r with
  | .send true discard, .error f =>
    if f.kind = .blockReturn then
      if ← sameFrame f.target a.frame then
        if !discard then push f.value
        return .exec a next
    raise a pc f
  | _, .error f => raise a pc f
  | .push, .ok v | .send _ false, .ok v =>
    push v
    return .exec a next
  | .send _ true, .ok _ => return .exec a next
  | .branch dest, .ok v => if v.isTruthy then return .exec a next else return .exec a (← demand dest)

def onValue (r : Except Failure Value) (f : Value → Exec Control) : Exec Control :=
  match r with
  | .ok v => f v
  | .error e => return .failure e

def resumeKont (k : Kont) (r : Except Failure Value) : Exec Control := do
  match k with
  | .activation a pc next pending => resumeActivation a pc next pending r
  | .native caller height guarded =>
    setFrame caller
    resize height
    if guarded then release
    return .deliver r
  | .drop height =>
    resize height
    return .deliver r
  | .boundary => return .deliver (r.mapError Failure.escape)
  | .negate => onValue r fun v => return .value (.ofBool (!v.isTruthy))
  | .each self blk i => onValue r fun _ => eachFrom self blk i
  | .map self blk out i =>
    match r with
    | .ok v =>
      appendElem out v
      mapFrom self blk out i
    | .error f =>
      release
      return .failure f
  | .times count i self blk => onValue r fun _ => timesFrom count i self blk
  | .loop blk =>
    match r with
    | .ok _ => loopAgain blk
    | .error f => if f.kind = .stopIteration then return .value f.value else return .failure f
  | .construct obj =>
    release
    onValue r fun _ => return .value obj
  | .puts v rest => onValue r fun t => do
    write ((← convertedText v t) ++ "\n")
    putsAll rest
  | .append self v => onValue r fun t => do appendText self (← convertedText v t)
  | .equal self other n i => onValue r fun v => do
    if v.isTruthy then equalFrom self other n i else return .value .false
  | .pull d =>
    match r with
    | .ok v => feed d v
    | .error f =>
      endDrive d
      if f.kind = .stopIteration then
        match d.mode with
        | .map out => return .value out
        | _ => return .value f.value
      else return .failure f
  | .feed d =>
    match r with
    | .ok v =>
      match d.mode with
      | .map out => appendElem out v
      | _ => pure ()
      pull d
    | .error f =>
      endDrive d
      return .failure f
  | .fiberBody => finishFiber r
  | .fiberIteration =>
    match r with
    | .ok v => finishFiber (.error { cause := .exhausted, value := v })
    | .error f => finishFiber (.error f)

/-! ## Steps -/

inductive Outcome where
  | done (r : Except Failure Value)
  /-- The host is asked for something; the run goes on with its answer. -/
  | host (call : HostCall)
  | cut (c : Control)

def step (c : Control) : Exec (Control ⊕ Outcome) := do
  match c with
  | .exec a pc => return .inl (← exec a pc)
  | .call fn self base argc kw blk => return .inl (← call fn self base argc kw blk)
  | .yield blk base argc => return .inl (← enterBlock blk base argc)
  | .host h => return .inr (.host h)
  | .deliver r =>
    match (← get).context.konts with
    | [] => return .inr (.done r)
    | k :: rest =>
      modify fun m => { m with context.konts := rest }
      return .inl (← resumeKont k r)

def run : Nat → Control → Exec Outcome
  | 0, c => return .cut c
  | fuel + 1, c => do
    match ← step c with
    | .inl c => run fuel c
    | .inr o => return o

/-- Forgets what an earlier run left undone. -/
def restart : Exec Unit := modify fun m => { m with context.konts := [] }

/-! ## Calls by the host -/

/-- Runs code as a top level, with the main object as receiver. -/
def startTop (fn : FnId) : Exec Control := do
  restart
  pushKont .boundary
  callDirect fn (← get).mainObject []

end Exec

end RubyMachine
