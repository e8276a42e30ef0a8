import RubyMachine.Machine.Builtins

/-! Call sites: the arguments that the flags of a send announce, and the call itself. -/

namespace RubyMachine

namespace ArgFlag

/-- A keyword Hash is on the stack. -/
def keywords : UInt8 := 0x01
/-- An Array of Hashes to merge is on the stack. -/
def keywordSplat : UInt8 := 0x02
/-- Some arguments are to be spread. -/
def splat : UInt8 := 0x04
/-- The value of a block argument is on the stack. -/
def block : UInt8 := 0x08
/-- The arguments of the enclosing method are passed on. -/
def delegate : UInt8 := 0x10

end ArgFlag

/-- The operands of a send. -/
structure SendSite where
  name : Ident
  argc : Nat
  flags : UInt8
  block : FnId
  cache : Nat
  discard : Bool

namespace SendSite

def has (s : SendSite) (flag : UInt8) : Bool := s.flags &&& flag != 0

end SendSite

namespace Exec

def insertAll (d : Value) (entries : List (Value × Value)) : Exec Unit :=
  entries.forM fun (k, v) => dictInsert d k v

/-- Folds an array of hashes into a new hash. -/
def mergeHashes (v : Value) : Attempt Value := do
  match ← asArray? v with
  | none => Attempt.fail .intoArray
  | some elems =>
    let out ← newDict
    elems.toList.forM fun h => do
      match ← asDict? h with
      | some d => insertAll out d.toList
      | none => Attempt.fail (.valueIntoHash (← inspect h))
    return out

/-- Pushes arguments; one that is to be spread is pushed element by element, and as nothing if it is
nil. -/
def pushSpread : List Value → Exec Unit
  | [] => return ()
  | v :: vs => do
    match ← asSplat? v with
    | none => push v
    | some w =>
      match ← asArray? w with
      | some elems => extend elems.toList
      | none => if !w.isNil then push w
    pushSpread vs

/-- The block of a send: a value on the stack, or a function of the site. -/
def siteBlock (site : SendSite) (frame : Nat) : Attempt (Option Block) := do
  if site.has ArgFlag.block then blockFromValue (← pop)
  else if site.block.id ≠ 0 then return some (.literal site.block frame)
  else return none

def siteKeywords (site : SendSite) : Attempt Value := do
  if site.has ArgFlag.keywords then pop
  else if site.has ArgFlag.keywordSplat then mergeHashes (← pop)
  else return .nil

/-- The scope of the nearest enclosing method that takes arguments to pass on, at most `fuel` levels
out, with its captured arguments. -/
def delegateEnv (name : Ident) : Nat → Env → Attempt (Env × List Value)
  | 0, _ => throwThe Defect .fault
  | fuel + 1, e => do
    let seq ← sequence (← e.fn)
    match seq.delegateSlot with
    | some slot =>
      match ← asArray? (← e.localAt slot.toNat) with
      | some #[args, kw] => return (e, [args, kw])
      | _ => throwThe Defect (.malformedDelegate (← identName seq.name))
    | none =>
      let o ← e.outer
      if o.isNil then Attempt.fail (.nothingToForward (← identName name))
      delegateEnv name fuel (← envAt o)

/-- Keywords passed on; those given at the site win. -/
def forwardKeywords (forwarded kw : Value) : Attempt Value := do
  if forwarded.isNil then return kw
  else if kw.isNil then return forwarded
  else mergeHashes (← newArray [forwarded, kw])

/-- Passes on the arguments, the keywords and the block of the enclosing method. -/
def pushDelegated (a : Activation) (kw : Value) (blk : Option Block) :
    Attempt (Value × Option Block) := do
  let fuel := (← stack).capacity + (← scopeFuel)
  let (e, captured) ← delegateEnv a.seq.name fuel (← frameEnv a.frame)
  match ← asArray? (captured.getD 0 .nil) with
  | some args => extend args.toList
  | none => pure ()
  let kw ← forwardKeywords (captured.getD 1 .nil) kw
  match blk with
  | some b => return (kw, some b)
  | none => return (kw, ← methodBlock? e)

/-- Sets up the call of a site. The stack holds the receiver and the arguments, then what the flags
announce. -/
def startSend (a : Activation) (site : SendSite) : Attempt Control := do
  let blk ← siteBlock site a.frame
  let kw ← siteKeywords site
  let base := (← height) - site.argc
  if site.has ArgFlag.splat then
    let args ← (← stack).slice base (← height)
    resize base
    pushSpread args
  let (kw, blk) ← if site.has ArgFlag.delegate then pushDelegated a kw blk else pure (kw, blk)
  let argc := (← height) - base
  let receiver ← (← stack).get (base - 1)
  match ← findMethodAt? a.fn site.cache (← classOf receiver) site.name with
  | none => throw (← noMethod site.name receiver)
  | some fn => return .call fn receiver base argc kw blk

end Exec

end RubyMachine
