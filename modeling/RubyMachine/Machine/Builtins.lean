import RubyMachine.Machine.Call

/-! The bodies of the builtin methods. Each is given its receiver, its arguments and its block; those
that call back leave a continuation that goes on with them. -/

namespace RubyMachine.Exec

/-! ## Iterations -/

/-- Passes the elements from `i` on to a block, also those added meanwhile. -/
def eachFrom (self : Value) (blk : Block) (i : Nat) : Exec Control := do
  match (← arrayOf self)[i]? with
  | some v =>
    pushKont (.each self blk (i + 1))
    callBlock (some blk) [v]
  | none => return .value self

/-- The same, collecting results. -/
def mapFrom (self : Value) (blk : Block) (out : Value) (i : Nat) : Exec Control := do
  match (← arrayOf self)[i]? with
  | some v =>
    pushKont (.map self blk out (i + 1))
    callBlock (some blk) [v]
  | none =>
    release
    return .value out

def appendElem (array v : Value) : Exec Unit :=
  update array fun
    | .array elems => .array (elems.push v)
    | o => o

def timesFrom (count i : Int) (self : Value) (blk : Block) : Exec Control := do
  if i < count then
    pushKont (.times count (i + 1) self blk)
    callBlock (some blk) [.ofInt i]
  else return .value self

def loopAgain (blk : Block) : Exec Control := do
  pushKont (.loop blk)
  callBlock (some blk) []

/-- Compares the elements of two arrays, `n` of them from `i` on. -/
def equalFrom (self other : Value) : Nat → Nat → Exec Control
  | 0, _ => return .value .true
  | n + 1, i => do
    let a ← demand (← arrayOf self)[i]?
    let b ← demand (← arrayOf other)[i]?
    match ← operation .eq a b with
    | .done (.ok v) => if v.isTruthy then equalFrom self other n (i + 1) else return .value .false
    | .done (.error f) => return .failure f
    | .send name negated =>
      pushKont (.equal self other n (i + 1))
      sendOperator name negated a b

/-! ## Texts -/

/-- The text of a value whose conversion gave `converted`. -/
def convertedText (v converted : Value) : Exec String := do
  match ← asString? converted with
  | some s => return s
  | none => inspect v

/-- Prints strings as they are and other values as their conversion. -/
def putsAll : List Value → Exec Control
  | [] => return .value .nil
  | v :: rest => do
    match ← asString? v with
    | some s =>
      write (s ++ "\n")
      putsAll rest
    | none =>
      pushKont (.puts v rest)
      send .toS v [] .nil none

def appendText (self : Value) (s : String) : Exec Control := do
  let _ ← stringOf self
  update self fun
    | .string t => .string (t ++ s)
    | o => o
  return .value self

/-! ## Arguments -/

def fixnumOf (v : Value) : Exec Int := do v.asFixnum

def floatOf (v : Value) : Exec UInt64 := do v.asFloat

def symbolOf (v : Value) : Exec Ident := do v.asSymbol

def symbolArg (v : Value) : Attempt Ident := do
  if v.isSymbol then return v.toSymbol else Attempt.fail (.notSymbol (← inspect v))

/-- An element's index; negative ones count from the end. -/
def elementAt? (elems : Array Value) (i : Int) : Option Value :=
  let i := if i < 0 then i + elems.size else i
  if i < 0 then none else elems[i.toNat]?

/-- An enumerator over a method of `receiver`: the first argument names it, the others are its own. -/
def enumeratorOver (receiver : Value) : List Value → Attempt Control
  | [] => return .value (← newEnumerator receiver .each [])
  | m :: rest => do
    let method ← symbolArg m
    return .value (← newEnumerator receiver method rest)

end Exec

open Exec Attempt

namespace Builtin

/-! ## Bodies by family -/

def runObject (b : Builtin) (self : Value) (args : List Value) (blk : Option Block) :
    Attempt Control := do
  let arg (i : Nat) := args.getD i .nil
  match b with
  | .identical => return .value (.ofBool (self == arg 0))
  | .differs => sendOperator .eq true self (arg 0)
  | .caseEqual => sendOperator .eq false self (arg 0)
  | .negation => return .value (.ofBool (!self.isTruthy))
  | .isNil => return .value (.ofBool self.isNil)
  | .classOf =>
    let c ← Exec.classOf self
    let t := (← get).classes
    return .value (t.entry (t.visible c)).self
  | .inspect => return .value (← newString (← Exec.inspect self))
  | .inspectAll =>
    args.forM fun v => do write ((← Exec.inspect v) ++ "\n")
    return .value (← pack args)
  | .puts =>
    if args.isEmpty then write "\n"
    putsAll args
  | .raise =>
    match ← deref? (arg 0) with
    | some (.exception f) => throw f
    | some (.string s) => fail (.worded .runtime s)
    | _ => if args.isEmpty then fail .unhandled else fail .exceptionExpected
  | .blockGiven => return .value (.ofBool (← currentBlock?).isSome)
  | .makeProc => if blk.isNone then fail .procWithoutBlock else return .value (← blockToProc blk)
  | .makeLambda =>
    if blk.isNone then fail .procWithoutBlock
    let v ← blockToProc blk
    if let some (.literal ..) := blk then
      update v fun
        | .proc p => .proc { p with lambda := true }
        | o => o
    return .value v
  | .loop =>
    match blk with
    | none => return .value (← Exec.newEnumerator self (← intern "loop") [])
    | some b => loopAgain b
  | .toEnum => enumeratorOver self args
  | .binding => return .value (← newBinding)
  | .ivarGet => return .value (← getIvar self (← symbolArg (arg 0)))
  | .ivarSet =>
    if ← setIvar self (← symbolArg (arg 0)) (arg 1) then return .value (arg 1)
    else fail (.ivarsOf (← Exec.inspect self))
  | _ => return .value (← newString "")

def runModule (b : Builtin) (self : Value) (args : List Value) (blk : Option Block) :
    Attempt Control := do
  match b with
  | .moduleName => return .value (← newString (← className (← moduleOf self)))
  | .mixIn =>
    args.forM fun v => do
      match ← asModule? v with
      | some m =>
        if (← module m).isModule then Exec.mixIn (← moduleOf self) m
        else fail (.expectedModule (← className (← Exec.classOf v)))
      | none => fail (.expectedModule (← className (← Exec.classOf v)))
    return .value self
  | .attributes reader writer =>
    args.forM fun v => do
      let name ← identName (← symbolArg v)
      defineAttr (← moduleOf self) name reader writer
    return .value .nil
  | .ancestors =>
    let t := (← get).classes
    let cls := (← asModule? self).getD ClassTable.missing
    return .value (← newArray ((t.ancestors cls).map fun c => (t.entry c).self))
  | _ =>
    let cls := (← asModule? self).getD ClassTable.missing
    let obj ← newObject cls
    match ← findMethod? cls .initializer with
    | some _ =>
      protect obj
      pushKont (.construct obj)
      send .initializer obj args .nil blk
    | none => return .value obj

def runNumber (b : Builtin) (self : Value) (args : List Value) (blk : Option Block) :
    Attempt Control := do
  match b with
  | .operator op =>
    let other := args.getD 0 .nil
    match ← operation op self other with
    | .done r => return .deliver r
    | .send name negated => sendOperator name negated self other
  | .negative =>
    if self.isFloat then return .value (.ofFloat (-self.toFloat))
    else return .deliver (Number.negate (.ofInt (← fixnumOf self)))
  | .integerText => return .value (← newString (toString (← fixnumOf self)))
  | .toFloat => return .value (.ofFloat (Float.ofInt (← fixnumOf self)))
  | .times =>
    match blk with
    | none => return .value (← Exec.newEnumerator self (← intern "times") [])
    | some b => timesFrom (← fixnumOf self) 0 self b
  | .floatText => return .value (← newString (← Exec.inspect self))
  | _ =>
    let bits ← floatOf self
    let x := Decimal.Binary64.ofBits bits
    if x.isNaN || x.isInfinite then fail (.notFinite (← Exec.inspect self))
    let f := Float.ofBits bits
    if f > Float.ofInt Value.maxFixnum ∨ f < Float.ofInt Value.minFixnum then
      fail (.floatRange (← Exec.inspect self))
    return .deliver (Number.fixnum (Number.truncate bits))

def runText (b : Builtin) (self : Value) (args : List Value) : Attempt Control := do
  let other := args.getD 0 .nil
  match b with
  | .itself => return .value self
  | .stringEqual =>
    match ← asString? other with
    | some t => return .value (.ofBool ((← stringOf self) == t))
    | none => return .value .false
  | .stringConcat =>
    match ← asString? other with
    | some t => return .value (← newString ((← stringOf self) ++ t))
    | none => fail (.intoString (← className (← Exec.classOf other)))
  | .stringAppend =>
    match ← asString? other with
    | some s => appendText self s
    | none =>
      pushKont (.append self other)
      send .toS other [] .nil none
  | .stringSize => return .value (.ofInt (← stringOf self).length)
  | .toSymbol => return .value (.ofSymbol (← intern (← stringOf self)))
  | .symbolText => return .value (← newString (← identName (← symbolOf self)))
  | _ => return .value (← blockToProc (some (.symbol (← symbolOf self))))

def runArray (b : Builtin) (self : Value) (args : List Value) (blk : Option Block) :
    Attempt Control := do
  let arg (i : Nat) := args.getD i .nil
  match b with
  | .arraySize => return .value (.ofInt (← arrayOf self).size)
  | .arrayGet =>
    if !(arg 0).isFixnum then fail .intoInteger
    return .value ((elementAt? (← arrayOf self) (arg 0).toInt).getD .nil)
  | .arraySet =>
    if !(arg 0).isFixnum then fail .intoInteger
    let size : Int := (← arrayOf self).size
    let i := (arg 0).toInt
    let at' := if i < 0 then i + size else i
    if at' < 0 then fail (.indexTooSmall i)
    update self fun
      | .array elems => .array (Object.setSlot elems at'.toNat (arg 1))
      | o => o
    return .value (arg 1)
  | .arrayPush =>
    let _ ← arrayOf self
    update self fun
      | .array elems => .array (elems ++ args.toArray)
      | o => o
    return .value self
  | .arrayFirst => return .value ((← arrayOf self).getD 0 .nil)
  | .arrayEqual =>
    match ← asArray? (arg 0) with
    | none => return .value .false
    | some b =>
      let a ← arrayOf self
      if a.size ≠ b.size then return .value .false
      equalFrom self (arg 0) a.size 0
  | .arrayEach =>
    match blk with
    | none => return .value (← Exec.newEnumerator self .each [])
    | some b => eachFrom self b 0
  | _ =>
    match blk with
    | none => return .value (← Exec.newEnumerator self .map [])
    | some b =>
      let out ← newArray []
      protect out
      mapFrom self b out 0

def runDict (b : Builtin) (self : Value) (args : List Value) : Attempt Control := do
  let key := args.getD 0 .nil
  match b with
  | .dictGet =>
    let id ← dictKey key
    return .value (((← dictOf self).find? id).getD .nil)
  | .dictSet =>
    let _ ← dictKey key
    let _ ← dictOf self
    let v := args.getD 1 .nil
    dictInsert self key v
    return .value v
  | .dictSize => return .value (.ofInt (← dictOf self).size)
  | .dictHasKey =>
    let id ← dictKey key
    return .value (.ofBool ((← dictOf self).find? id).isSome)
  | _ => return .value (← newArray (← dictOf self).keys)

def readable (v : Value) : Value := if v.isUninit then .nil else v

def runClosure (b : Builtin) (self : Value) (args : List Value) : Attempt Control := do
  let arg (i : Nat) := args.getD i .nil
  match b with
  | .procCall => callBlock (some (.proc self)) args
  | .isLambda => return .value (.ofBool (← procOf self).lambda)
  | .procBinding =>
    let p ← procOf self
    if p.outer.isNil then fail .bindingOfHostProc
    return .value p.outer
  | .localNames => return .value (← newArray ((← Exec.localNames self).map .ofSymbol))
  | .receiver =>
    let _ ← asScope self
    return .value (← (Env.heap self).self)
  | .localGet =>
    let (scope, slot) ← findLocal self (arg 0)
    return .value (readable (← (Env.heap scope).localAt slot))
  | .localSet =>
    let (scope, slot) ← findLocal self (arg 0)
    (Env.heap scope).setLocalAt slot (arg 1)
    return .value (arg 1)
  | _ => return .value (.ofBool (← hasLocal self (arg 0)))

def runFiber (b : Builtin) (self : Value) (args : List Value) (blk : Option Block) :
    Attempt Control := do
  match b with
  | .newFiber =>
    if blk.isNone then fail .procWithoutBlock
    return .value (← Exec.newFiber (← blockToProc blk) none)
  | .fiberYield => suspend (← pack args)
  | .fiberResume => resumeFiber (← fiberOf self) args
  | _ => return .value (.ofBool ((← fiber (← fiberOf self)).state != .dead))

/-- Forgets the fiber of an enumerator. -/
def rewind (self : Value) : Exec Control := do
  let e ← enumeratorOf self
  match ← asFiber? e.fiber with
  | some id =>
    if (← fiber id).active then abandonRunning id
    else
      releaseFiber id
      setEnumeratorFiber self .nil
      return .value self
  | none =>
    setEnumeratorFiber self .nil
    return .value self

def runEnumerator (b : Builtin) (self : Value) (args : List Value) (blk : Option Block) :
    Attempt Control := do
  let arg (i : Nat) := args.getD i .nil
  match b with
  | .newEnumerator => enumeratorOver (arg 0) args.tail
  | .enumNext => enumeratorNext self (← enumeratorOf self)
  | .enumRewind => rewind self
  | .enumEach =>
    match blk with
    | none => return .value self
    | some b => drive (← enumeratorOf self) b .each
  | .enumMap =>
    match blk with
    | none => return .value (← Exec.newEnumerator self .map [])
    | some b =>
      let e ← enumeratorOf self
      let out ← newArray []
      protect out
      drive e b (.map out)
  | .enumWithIndex =>
    if !(arg 0).isNil && !(arg 0).isFixnum then fail .intoInteger
    let first := if (arg 0).isNil then 0 else (arg 0).toInt
    match blk with
    | none => return .value (← Exec.newEnumerator self .withIndex args)
    | some b => drive (← enumeratorOf self) b (.withIndex first)
  | _ =>
    let _ ← enumeratorOf self
    return .value (← newString (← Exec.inspect self))

/-- The counters of the heap under their names. -/
def heapCounters (s : Heap.Stats) : List (String × Int) := [
  ("live", s.live), ("free", s.free), ("total_allocated", s.totalAllocated.toNat),
  ("pages", s.pages), ("free_pages", s.freePages), ("count", s.sweeps.toNat)]

def setCollector (on : Bool) : Exec Value := do
  let was := (← get).heap.enabled
  onHeap (modify fun h => h.setEnabled on)
  return .ofBool (!was)

def runCollector (b : Builtin) : Attempt Control := do
  match b with
  | .collect =>
    let _ ← Exec.collect
    return .value .nil
  | .collections => return .deliver (Number.fixnum (← get).collections.length)
  | .enableCollector => return .value (← setCollector true)
  | .disableCollector => return .value (← setCollector false)
  | _ =>
    let counters := heapCounters (← get).heap.stats
    let d ← newDict
    counters.forM fun (name, n) => do dictInsert d (.ofSymbol (← intern name)) (.ofInt n)
    return .value d

/-- Runs a builtin whose frame has been pushed. -/
def run (b : Builtin) (self : Value) (args : List Value) (blk : Option Block) : Attempt Control :=
  match b with
  | .identical | .differs | .caseEqual | .negation | .isNil | .classOf | .inspect | .inspectAll
  | .puts | .raise | .blockGiven | .makeProc | .makeLambda | .loop | .toEnum | .binding | .ivarGet
  | .ivarSet | .emptyText => runObject b self args blk
  | .moduleName | .mixIn | .attributes .. | .ancestors | .construct => runModule b self args blk
  | .operator _ | .negative | .integerText | .toFloat | .times | .floatText | .toInteger =>
    runNumber b self args blk
  | .itself | .stringEqual | .stringConcat | .stringAppend | .stringSize | .toSymbol | .symbolText
  | .symbolProc => runText b self args
  | .arraySize | .arrayGet | .arraySet | .arrayPush | .arrayFirst | .arrayEqual | .arrayEach
  | .arrayMap => runArray b self args blk
  | .dictGet | .dictSet | .dictSize | .dictHasKey | .dictKeys => runDict b self args
  | .procCall | .isLambda | .procBinding | .localNames | .receiver | .localGet | .localSet
  | .localDefined => runClosure b self args
  | .newFiber | .fiberYield | .fiberResume | .fiberAlive => runFiber b self args blk
  | .newEnumerator | .enumNext | .enumRewind | .enumEach | .enumMap | .enumWithIndex | .enumText =>
    runEnumerator b self args blk
  | .collect | .collections | .enableCollector | .disableCollector | .heapStats => runCollector b
  | .host name => return .host { name, isMethod := true, self, args, block := blk }

end Builtin

end RubyMachine
