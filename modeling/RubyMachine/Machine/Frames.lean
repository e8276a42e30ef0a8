import RubyMachine.Machine.Objects

/-! Frames on the stack and environments, which are frames or their copies on the heap.

A call takes up one run of slots: the receiver, the local slots, the receiver again, and the control
words. A frame is named by the slot of its first control word. Code frames go on with the words of
their environment; builtins have control words only. Frames are read from memory as it is, so a local
slot past the end of its frame is some other word. -/

namespace RubyMachine

namespace Frame

/-! ## Offsets from the first control word -/

def prevWord : Int := 0
def envWord : Int := 1
def flagWord : Int := 2
def methodWord : Int := 3
def outerWord : Int := 4
def pcWord : Int := 5
def fnWord : Int := 6
def blockWord : Int := 7

/-- The number of words of a code frame. -/
def words : Nat := 8

/-! ## The flag word: a number of slots above eight bits of flags -/

def discardFlag : UInt64 := 0x4
def lambdaFlag : UInt64 := 0x10
def codeFlag : UInt64 := 0x80

def flags (slots : Int) (bits : UInt64) : Except Defect Value :=
  Value.fixnum (slots * 256 + bits.toNat)

end Frame

namespace Exec

/-! ## Control words -/

def word (i : Int) : Exec Value := do (← stack).word? i

def setWord (i : Int) (v : Value) : Exec Unit := do
  (← stack).checkWord i
  modifyStack (·.poke i.toNat v)

/-- The flags of the frame at a slot, without regard to their sign. -/
def frameFlags (frame : Int) : Exec UInt64 := do
  let n ← (← word (frame + Frame.flagWord)).asFixnum
  return UInt64.ofInt n

def frameSlots (frame : Int) : Exec Int := return ((← frameFlags frame) >>> 8).toNat

def isCodeFrame (frame : Int) : Exec Bool := return (← frameFlags frame) &&& Frame.codeFlag != 0

def isLambdaFrame (frame : Int) : Exec Bool := return (← frameFlags frame) &&& Frame.lambdaFlag != 0

def isDiscardFrame (frame : Int) : Exec Bool := return (← frameFlags frame) &&& Frame.discardFlag != 0

/-- The caller of a frame. -/
def prevFrame? (frame : Int) : Exec (Option Nat) := do
  let v ← word (frame + Frame.prevWord)
  if v.isFrame then return some v.toFrame else return none

/-- The first code frame from `frame` outwards, at most `fuel` frames away. -/
def codeFrameFrom? : Nat → Nat → Exec (Option Nat)
  | 0, _ => return none
  | fuel + 1, frame => do
    if ← isCodeFrame frame then return some frame
    match ← prevFrame? frame with
    | some prev => codeFrameFrom? fuel prev
    | none => return none

/-- The code frame that called the running builtin, or the running one itself. -/
def callerFrame? : Exec (Option Nat) := do
  match ← frame? with
  | some f => codeFrameFrom? ((← stack).capacity + 1) f
  | none => return none

/-- The current frame as a value. -/
def frameValue : Exec Value := return ((← frame?).map Value.frameAt).getD .nil

end Exec

/-! ## Environments -/

/-- Where the words of an environment are: in the stack from a slot on, or in a scope. -/
inductive Env where
  | stack (frame : Nat)
  | heap (scope : Value)

namespace Env

open Exec

def wordAt (e : Env) (i : Int) : Exec Value := do
  match e with
  | .stack f => word (f + i)
  | .heap v =>
    let s ← asScope v
    let k := s.base + i
    if k < 0 then throw .fault
    demand s.words[k.toNat]?

def setWordAt (e : Env) (i : Int) (v : Value) : Exec Unit := do
  match e with
  | .stack f => setWord (f + i) v
  | .heap r =>
    let s ← asScope r
    let k := s.base + i
    if k < 0 ∨ (s.words.size : Int) ≤ k then throw .fault
    update r fun
      | .scope s => .scope { s with words := s.words.setIfInBounds k.toNat v }
      | o => o

def self (e : Env) : Exec Value := e.wordAt (-1)
def method (e : Env) : Exec Value := e.wordAt Frame.methodWord
def outer (e : Env) : Exec Value := e.wordAt Frame.outerWord
def block (e : Env) : Exec Value := e.wordAt Frame.blockWord

/-- The function that runs in the environment. -/
def fn (e : Env) : Exec FnId := do
  let n ← (← e.wordAt Frame.fnWord).asFixnum
  return ⟨(UInt64.ofInt n).toUInt32⟩

/-- The saved position, 0 when there is none. -/
def pc (e : Env) : Exec Int := do
  let v ← e.wordAt Frame.pcWord
  return if v.isFixnum then v.toInt else 0

def setPc (e : Env) (pc : Int) : Exec Unit := do
  e.setWordAt Frame.pcWord (← Value.fixnum pc)

def slotCount (e : Env) : Exec Int := do
  let n ← (← e.wordAt Frame.flagWord).asFixnum
  return (UInt64.ofInt n >>> 8).toNat

/-- A local slot. -/
def localAt (e : Env) (i : Int) : Exec Value := do
  e.wordAt (i - (← e.slotCount) - 1)

def setLocalAt (e : Env) (i : Int) (v : Value) : Exec Unit := do
  e.setWordAt (i - (← e.slotCount) - 1) v

/-- All local slots. -/
def locals (e : Env) : Exec (List Value) := do
  let n ← e.slotCount
  (List.range n.toNat).mapM fun (i : Nat) => e.wordAt ((i : Int) - n - 1)

end Env

namespace Exec

/-- The environment that a word names; a frame that was moved to the heap is followed there. -/
def envAt (v : Value) : Exec Env := do
  if v.isFrame then
    let ep ← word (v.toFrame + Frame.envWord)
    if ep.isRef then
      let _ ← asScope ep
      return .heap ep
    else return .stack v.toFrame
  else if v.isRef then
    let _ ← asScope v
    return .heap v
  else throw (.notEnvironment v)

/-- The environment of the frame at a slot. -/
def frameEnv (frame : Nat) : Exec Env := envAt (.frameAt frame)

/-- The environment some scopes out from a frame. -/
def outerEnv (frame : Nat) (depth : Nat) : Exec Env := do
  go depth (← frameEnv frame)
where
  go : Nat → Env → Exec Env
    | 0, e => return e
    | n + 1, e => do
      let o ← e.outer
      if o.isNil then throw (.noOuterScope (n + 1))
      go n (← envAt o)

/-- Whether a word names the frame at a slot, by its place or by its copy on the heap. -/
def sameFrame (target : Value) (frame : Nat) : Exec Bool := do
  if target == .frameAt frame then return true
  if target.isRef then return (← word (frame + Frame.envWord)) == target
  return false

/-- The block that was passed to the method of an environment. -/
def methodBlock? (e : Env) : Exec (Option Block) := do
  return Block.ofWord (← (← envAt (← e.method)).block)

/-- The block of the method that called the running builtin. -/
def currentBlock? : Exec (Option Block) := do
  match ← callerFrame? with
  | some f => methodBlock? (← envAt (← word (f + Frame.envWord)))
  | none => return none

end Exec

end RubyMachine
