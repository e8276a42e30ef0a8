import RubyMachine.Machine.Scopes

/-! Binding arguments to parameters.

Before a call the positional arguments are the top of the stack, from slot `low` on. Binding turns them
into the local slots of the callee, so that the stack ends after the last slot. -/

namespace RubyMachine.Exec

open Code

/-- The local slots of a callee. -/
structure Locals where
  low : Int
  size : Nat

namespace Locals

def set (l : Locals) (i : Int) (v : Value) : Exec Unit := do
  if i < 0 ∨ (l.size : Int) ≤ i then throw .fault
  setWord (l.low + i) v

def setOptional (l : Locals) (slot : Option UInt32) (v : Exec Value) : Exec Unit := do
  if let some i := slot then l.set i.toNat (← v)

def setFrom (l : Locals) (i : Int) : List Value → Exec Unit
  | [] => return ()
  | v :: vs => do
    setWord (l.low + i) v
    l.setFrom (i + 1) vs

/-- Writes values to the slots from `i` up to `j`. The range may go past the local slots as long as
there is stack. -/
def copy (l : Locals) (i j : Int) (vs : List Value) : Exec Unit := do
  if i < 0 ∨ j < i ∨ ((← stack).capacity : Int) < l.low + j then throw .fault
  l.setFrom i (vs.take (j - i).toNat)

/-- Marks the slots from `i` up to `j` as not given. -/
def unset (l : Locals) (i j : Int) : Exec Unit := do
  if i < j ∧ (i < 0 ∨ (l.size : Int) < j) then throw .fault
  (List.range (j - i).toNat).forM fun (k : Nat) => l.set (i + k) .uninit

end Locals

/-- Keywords for a callee that declares none become one more positional argument. -/
def foldKeywords (p : Params) (argc : Int) (kw : Value) : Exec (Int × Value) := do
  if kw.isNil || p.hasKeywords || p.delegate then return (argc, kw)
  push kw
  return (argc + 1, .nil)

/-- Lays positional arguments out and gives those left over. Optional parameters come after the
required ones and before the trailing ones; a call with too few arguments leaves some slots nil. -/
def fillPositional (p : Params) (l : Locals) (args : List Value) : Exec (List Value) := do
  let argc : Int := args.length
  let optional := p.positional
  let post := Params.sum optional p.restSlots
  let drop (n : Int) := args.drop n.toNat
  if argc > Params.sum optional p.post then
    l.copy 0 optional args
    l.copy post (post + p.post) (drop (argc - p.post))
    return (drop optional).take (argc - p.post - optional).toNat
  else if argc ≥ p.least then
    let given := argc - p.post
    l.copy 0 given args
    l.unset given optional
    l.copy post (post + p.post) (drop given)
    return []
  else
    let given := min argc p.req
    l.copy 0 given args
    l.unset p.req optional
    l.copy post (post + p.post) (drop given)
    return []

/-- Gives each keyword its slot. Those without one go to the slot for surplus keywords. -/
def routeKeywords (p : Params) (l : Locals) (rest : Option Value) : List (Value × Value) → Attempt Unit
  | [] => return ()
  | (k, v) :: more => do
    match if k.isSymbol then p.keywordSlot? k.toSymbol else none with
    | some slot => l.set slot.toNat v
    | none =>
      match rest with
      | some d => dictInsert d k v
      | none => if !p.delegate then Attempt.fail (.unknownKeyword (← keywordText k))
    routeKeywords p l rest more

def fillKeywords (seq : Sequence) (l : Locals) (kw : Value) : Attempt Unit := do
  let rest ← match seq.kwRestSlot with
    | some slot => do
      let d ← newDict
      l.set slot.toNat d
      pure (some d)
    | none => pure none
  if !kw.isNil then
    match ← asDict? kw with
    | some d => routeKeywords seq.params l rest d.toList
    | none => Attempt.fail .intoHash

/-- Lays out all parameters. Optional parameters without an argument are marked as not given, so that
their default expressions run. -/
def fillParams (seq : Sequence) (low argc : Int) (kw : Value) (blk : Option Block) : Attempt Unit := do
  let p := seq.params
  let args ← (← stack).slice low (low + argc)
  resize low
  grow seq.slotCount
  let l : Locals := ⟨low, seq.slotCount⟩
  let excess ← fillPositional p l args
  if p.rest = .named then l.set p.positional (← newArray excess)
  l.setOptional seq.delegateSlot do newArray [← newArray excess, kw]
  p.keywords.forM fun k => l.set k.slot.toNat .uninit
  fillKeywords seq l kw
  l.setOptional seq.blockSlot (blockToProc blk)

/-- Binds the arguments of a method, which must be of the right number. -/
def bindMethod (seq : Sequence) (low argc : Int) (kw : Value) (blk : Option Block) : Attempt Unit := do
  let p := seq.params
  if p.isSimple && kw.isNil then
    if argc ≠ p.req then Attempt.fail (.argumentCount argc p.req)
    resize (Params.sum low seq.slotCount)
  else
    let (argc, kw) ← foldKeywords p argc kw
    let least := p.least
    if p.rest ≠ .none ∨ p.delegate then
      if argc < least then Attempt.fail (.argumentMin argc least)
    else if argc < least ∨ argc > Params.sum least p.opt then
      Attempt.fail (.argumentsBetween argc least (Params.sum least p.opt))
    fillParams seq low argc kw blk

/-- A single array for several parameters is spread over them. -/
def spreadArray (p : Params) (low argc : Int) (kw : Value) : Exec Int := do
  if argc = 1 ∧ p.spreads ∧ kw.isNil then
    match ← asArray? (← (← stack).get low) with
    | some elems =>
      resize low
      extend elems.toList
      return elems.size
    | none => return argc
  else return argc

/-- Binds the arguments of a block: missing ones are nil and extra ones are dropped. -/
def bindBlock (seq : Sequence) (low argc : Int) (kw : Value) (blk : Option Block) : Attempt Unit := do
  let p := seq.params
  let argc ← spreadArray p low argc kw
  if p.isSimple && kw.isNil then
    resize (low + min argc p.req)
    resize (Params.sum low seq.slotCount)
  else
    let (argc, kw) ← foldKeywords p argc kw
    fillParams seq low argc kw blk

end RubyMachine.Exec
