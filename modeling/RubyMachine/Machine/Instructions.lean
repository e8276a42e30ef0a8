import RubyMachine.Machine.Sends

/-! The effect of each instruction. -/

namespace RubyMachine

/-- What an instruction leads to. -/
inductive Effect where
  /-- The next instruction. -/
  | next
  /-- The instruction at a distance from the next one. -/
  | jump (distance : Int)
  /-- The end of the activation. -/
  | leave (r : Except Failure Value)
  /-- A call, and then what is pending. -/
  | wait (pending : Pending) (call : Exec Control)

/-- The instruction that is being run. -/
structure Site where
  act : Activation
  pc : Nat
  op : Code.Opcode

namespace Site

open Exec

/-! ## Operands -/

def u8 (s : Site) (i : Nat) : Exec UInt8 := demand s.act.seq.code[s.pc + i]?
def u16 (s : Site) (i : Nat) : Exec UInt16 := demand (s.act.seq.code.u16At? (s.pc + i))
def u32 (s : Site) (i : Nat) : Exec UInt32 := demand (s.act.seq.code.u32At? (s.pc + i))
def u64 (s : Site) (i : Nat) : Exec UInt64 := demand (s.act.seq.code.u64At? (s.pc + i))
def i32 (s : Site) (i : Nat) : Exec Int := return (← s.u32 i).toInt32.toInt
def distance? (s : Site) (i : Nat) : Option Int :=
  (s.act.seq.code.u32At? (s.pc + i)).map fun n => n.toInt32.toInt
def count (s : Site) (i : Nat) : Exec Nat := return (← s.u32 i).toNat
def ident (s : Site) (i : Nat) : Exec Ident := return ⟨← s.u32 i⟩
def fn (s : Site) (i : Nat) : Exec FnId := return ⟨← s.u32 i⟩

def env (s : Site) : Exec Env := frameEnv s.act.frame

def savePc (s : Site) : Exec Unit := do (← s.env).setPc s.pc

/-- Where definitions land: in the class whose body runs, else where the code was defined. -/
def lexicalClass (s : Site) : Exec Nat := do
  let own ← if s.act.seq.kind = .classBody then do asModule? (← (← s.env).self) else pure none
  match own with
  | some m => return m
  | none => return ((← function s.act.fn).owner).getD ClassTable.object

/-! ## Values -/

def dictFrom (d : Value) : List Value → Exec Unit
  | k :: v :: rest => do
    dictInsert d k v
    dictFrom d rest
  | _ => return ()

/-- Literals, arrays, hashes and procs. A string literal is copied each time. -/
def create (s : Site) : Attempt Effect := do
  match s.op with
  | .pushVal => push ⟨← s.u64 1⟩
  | .pushFlonum => push (.ofFloatBits (← s.u64 1))
  | .pushNil => push .nil
  | .pushSelf => push (← (← s.env).self)
  | .constVal =>
    let v ← literal s (← s.count 1)
    match ← asString? v with
    | some t => push (← newString t)
    | none => push v
  | .createArray =>
    let n ← s.count 1
    let vs ← popN n
    push (← newArray vs)
  | .createHash =>
    let n ← s.count 1
    let kvs ← popN (2 * n)
    let d ← newDict
    dictFrom d kvs
    push d
  | _ =>
    let fn ← s.fn 1
    push (← makeProc fn (.frameAt s.act.frame))
  return .next
where
  literal (s : Site) (i : Nat) : Exec Value := demand s.act.seq.consts[i]?

/-! ## Variables -/

def access (s : Site) : Attempt Effect := do
  match s.op with
  | .getLocal => push (Builtin.readable (← (← s.env).localAt (← s.count 1)))
  | .setLocal =>
    let e ← s.env
    let slot ← s.count 1
    e.setLocalAt slot (← pop)
  | .getDynLocal =>
    let e ← outerEnv s.act.frame (← s.count 5)
    push (Builtin.readable (← e.localAt (← s.count 1)))
  | .setDynLocal =>
    let e ← outerEnv s.act.frame (← s.count 5)
    let slot ← s.count 1
    e.setLocalAt slot (← pop)
  | .checkLocal =>
    let e ← outerEnv s.act.frame (← s.count 5)
    push (.ofBool (!(← e.localAt (← s.count 1)).isUninit))
  | .getConst =>
    let name ← s.ident 1
    match ← findConstAt? s.act.fn (← s.count 5) name with
    | some v => push v
    | none => Attempt.fail (.uninitializedConstant (← identName name))
  | .getConstTop =>
    let name ← s.ident 1
    match ← findConst? none name with
    | some v => push v
    | none => Attempt.fail (.uninitializedConstant (← identName name))
  | .setConst =>
    let cls ← s.lexicalClass
    let name ← s.ident 1
    setConst cls name (← pop)
  | .getIvar =>
    let self ← (← s.env).self
    push (← getIvar self (← s.ident 1))
  | .setIvar =>
    let self ← (← s.env).self
    let name ← s.ident 1
    let v ← pop
    if !(← setIvar self name v) then Attempt.fail (.ivarsOf (← inspect self))
  | .getGvar => push (← getGlobal (← s.ident 1))
  | _ =>
    let name ← s.ident 1
    setGlobal name (← pop)
  return .next

/-! ## The stack -/

/-- Pushes `n` elements from `i` on, nil where there are none. -/
def pushElems (elems : Array Value) (i : Nat) : Nat → Exec Unit
  | 0 => return ()
  | n + 1 => do
    push (elems.getD i .nil)
    pushElems elems (i + 1) n

def shuffle (s : Site) : Attempt Effect := do
  match s.op with
  | .pop => let _ ← pop
  | .dup =>
    let n ← s.count 1
    let top ← height
    grow n
    updateStack (·.copyWithin (top - n) top n)
  | .take =>
    let n ← s.count 1
    let v ← pop
    let elems := (← asArray? v).getD #[v]
    pushElems elems 0 n
  | .splat => push (← alloc (.splat (← pop)))
  | .sinkN =>
    let n ← s.count 1
    let v ← pop
    let h ← height
    updateStack (·.insert (h - n) v)
  | _ =>
    let n ← s.count 1
    push (← topValue n)
  return .next
where
  topValue (n : Nat) : Exec Value := do (← stack).peek n

/-! ## Sends -/

def sendSite (s : Site) : Exec SendSite := do
  let name ← s.ident 1
  let argc := (← s.u16 5).toNat
  if s.op = .send then
    return ⟨name, argc, ← s.u8 7, ← s.fn 8, ← s.count 12, false⟩
  else
    return ⟨name, argc, 0, ← s.fn 7, ← s.count 11, s.op == .optSendN⟩

def send (s : Site) : Attempt Effect := do
  s.savePc
  let site ← s.sendSite
  let call ← startSend s.act site
  return .wait (.send (site.block.id != 0) site.discard) (pure call)

def yield (s : Site) : Attempt Effect := do
  s.savePc
  let argc : Int := ← s.count 1
  match ← methodBlock? (← s.env) with
  | none => Attempt.fail .noBlock
  | some b =>
    let base := (← height) - argc
    updateStack (·.insert base .nil)
    return .wait .push (pure (.yield b (base + 1) argc))

/-! ## Definitions -/

def defMethod (s : Site) : Attempt Effect := do
  let name ← s.ident 1
  let fn ← s.fn 5
  let cls ← if s.op = .defSingletonMethod then do
      let self ← (← s.env).self
      match ← asModule? self with
      | some m => singletonClass m
      | none => Attempt.fail (.singletonMethod (← inspect self))
    else s.lexicalClass
  let _ ← sequence fn
  setOwner fn cls
  defineMethod cls name fn
  push (.ofSymbol name)
  return .next

/-- The superclass that a value stands for. -/
def superclass (v : Value) : Attempt (Option Nat) := do
  if v.isNil then return none
  match ← asModule? v with
  | some m =>
    if (← module m).isModule then Attempt.fail .superclass
    return some m
  | none => Attempt.fail .superclass

/-- Opens or makes a class or module and runs its body with the class as receiver. -/
def defClass (s : Site) : Attempt Effect := do
  s.savePc
  let isModule := (← s.u8 1) != 0
  let name ← s.ident 2
  let body ← s.fn 6
  let super ← superclass (← pop)
  let cls ← defineModule (← s.lexicalClass) name super isModule
  let m ← module cls
  if m.isModule != isModule then Attempt.fail (.reopenedKind (← className cls) isModule)
  let _ ← sequence body
  setOwner body cls
  return .wait .push (callDirect body m.self [])

/-! ## Control -/

def jump (s : Site) : Attempt Effect := do
  match s.op with
  | .jmp => return .jump (← s.i32 1)
  | .jmpBack =>
    let d ← s.i32 1
    safepoint
    return .jump d
  | .jmpIfFalse => if (← pop).isTruthy then return .next else return .jump (← s.i32 1)
  | _ => if (← pop).isTruthy then return .jump (← s.i32 1) else return .next

/-- Ends the activation, or unwinds to the send or the method that a block belongs to. -/
def exit (s : Site) : Attempt Effect := do
  let v ← pop
  let inBlock := s.act.seq.kind == .block
  match s.op with
  | .brk =>
    if inBlock then return .leave (.error (.blockReturn v (← (← s.env).outer)))
    else return .leave (.ok v)
  | .methodRet =>
    if inBlock && !(← isLambdaFrame s.act.frame) then
      return .leave (.error (.methodReturn v (← (← s.env).method)))
    else return .leave (.ok v)
  | _ => return .leave (.ok v)

def throwValue : Attempt Effect := do
  let v ← pop
  match ← deref? v with
  | some (.exception f) => throw f
  | _ => Attempt.fail (.worded .runtime (← inspect v))

/-! ## Operators -/

/-- Applies an operator and does what is pending with its value. -/
def apply (op : Operator) (lhs rhs : Value) (pending : Pending) (done : Value → Exec Effect) :
    Attempt Effect := do
  match ← operation op lhs rhs with
  | .done (.ok v) => done v
  | .done (.error f) => throw f
  | .send name negated => return .wait pending (sendOperator name negated lhs rhs)

def pushResult (v : Value) : Exec Effect := do
  push v
  return .next

def applyPush (op : Operator) (lhs rhs : Value) : Attempt Effect := apply op lhs rhs .push pushResult

/-- Jumps when the value is false. -/
def applyBranch (s : Site) (op : Operator) (lhs rhs : Value) (distanceAt : Nat) : Attempt Effect := do
  let dest := (s.distance? distanceAt).map (((s.pc + s.op.size : Nat) : Int) + ·)
  apply op lhs rhs (.branch dest) fun v => do
    if v.isTruthy then return .next else return .jump (← s.i32 distanceAt)

def negative : Attempt Effect := do
  let v ← pop
  if v.isFixnum then
    match Number.negate (.ofInt v.toInt) with
    | .ok r => pushResult r
    | .error f => throw f
  else if v.isFloat then pushResult (.ofFloat (-v.toFloat))
  else return .wait .push (Exec.send .neg v [] .nil none)

def complement : Attempt Effect := do
  let v ← pop
  if !v.isFixnum then Attempt.fail .intoInteger
  pushResult (Number.complement (.ofInt v.toInt))

def immediate (s : Site) : Exec Value := return .ofInt (← s.i32 1)

def operator (s : Site) : Attempt Effect := do
  match s.op with
  | .not => pushResult (.ofBool (!(← pop).isTruthy))
  | .neg => negative
  | .bitNot => complement
  | op =>
    match Operator.ofOpcode? op, Operator.ofImmediate? op, Operator.ofBranch? op,
      Operator.ofImmediateBranch? op with
    | some o, _, _, _ =>
      let rhs ← pop
      let lhs ← pop
      applyPush o lhs rhs
    | _, some o, _, _ =>
      let rhs ← s.immediate
      let lhs ← pop
      applyPush o lhs rhs
    | _, _, some o, _ =>
      let rhs ← pop
      let lhs ← pop
      s.applyBranch o lhs rhs 1
    | _, _, _, some o =>
      let rhs ← s.immediate
      let lhs ← pop
      s.applyBranch o lhs rhs 5
    | _, _, _, _ => Attempt.fail (.unimplemented op.mnemonic)

/-- Runs one instruction. Some instructions of the set have no effect of their own yet and fail. -/
def perform (s : Site) : Attempt Effect :=
  match s.op with
  | .pushVal | .pushFlonum | .pushNil | .pushSelf | .constVal | .createArray | .createHash
  | .createProc => s.create
  | .getLocal | .setLocal | .getDynLocal | .setDynLocal | .checkLocal | .getConst | .getConstTop
  | .setConst | .getIvar | .setIvar | .getGvar | .setGvar => s.access
  | .pop | .dup | .take | .splat | .sinkN | .topN => s.shuffle
  | .send | .optSend | .optSendN => s.send
  | .yield => s.yield
  | .defMethod | .defSingletonMethod => s.defMethod
  | .defClass => s.defClass
  | .jmp | .jmpBack | .jmpIfFalse | .jmpIfTrue => s.jump
  | .ret | .brk | .methodRet => s.exit
  | .throw => throwValue
  | _ => s.operator

end Site

end RubyMachine
