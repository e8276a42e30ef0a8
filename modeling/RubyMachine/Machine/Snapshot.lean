import RubyMachine.Machine.Scopes

/-! Views of frames and environments, for whoever looks at a machine from outside. -/

namespace RubyMachine

structure EnvView where
  locals : List Value
  self : Value
  method : Value
  outer : Value
  fn : FnId
  block : Value
  pc : Int

structure FrameView where
  frame : Nat
  slots : Int
  isCode : Bool
  isLambda : Bool
  isDiscard : Bool
  self : Value
  envWord : Value
  locals : List Value
  /-- The environment of a code frame. -/
  env : Option EnvView

namespace FrameView

/-- The slot of the first local. -/
def low (f : FrameView) : Int := f.frame - f.slots - 1

/-- The stack length to go back to. -/
def height (f : FrameView) : Int := f.low - 1

end FrameView

namespace Exec

def envView (e : Env) : Exec EnvView := do
  return {
    locals := ← e.locals, self := ← e.self, method := ← e.method, outer := ← e.outer, fn := ← e.fn,
    block := ← e.block, pc := ← e.pc }

def frameView (frame : Nat) : Exec FrameView := do
  let slots ← frameSlots frame
  let isCode ← isCodeFrame frame
  let envWord ← word (frame + Frame.envWord)
  return {
    frame, slots, isCode, envWord
    isLambda := ← isLambdaFrame frame
    isDiscard := ← isDiscardFrame frame
    self := ← word (frame - 1)
    locals := ← (List.range slots.toNat).mapM fun (i : Nat) => word (frame - slots - 1 + i)
    env := ← if isCode then do pure (some (← envView (← envAt envWord))) else pure none }

def framesFrom : Nat → Option Nat → Exec (List FrameView)
  | fuel + 1, some frame => do
    return (← frameView frame) :: (← framesFrom fuel (← prevFrame? frame))
  | _, _ => return []

/-- The frames of the running thread, the innermost first. -/
def frames : Exec (List FrameView) := do framesFrom ((← stack).capacity + 1) (← frame?)

end Exec

end RubyMachine
