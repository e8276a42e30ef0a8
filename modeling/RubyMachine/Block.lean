import RubyMachine.Value

/-! Blocks: what a call passes along besides its arguments, and the word that stands for it in a
frame. -/

namespace RubyMachine

inductive Block where
  /-- A block written in the code of a live frame, named by the frame's slot. -/
  | literal (fn : FnId) (frame : Nat)
  | proc (value : Value)
  /-- Sends a method to the first argument. -/
  | symbol (name : Ident)
  deriving DecidableEq

namespace Block

/-- The word of a block, nil for none. -/
def word : Option Block → Value
  | some (.literal fn frame) => .ofBlock fn (UInt64.ofNat frame)
  | some (.proc v) => v
  | some (.symbol name) => .ofSymbol name
  | none => .nil

def ofWord (v : Value) : Option Block :=
  if v.isBlock then some (.literal v.toBlock.1 v.toBlock.2)
  else if v.isRef then some (.proc v)
  else if v.isSymbol then some (.symbol v.toSymbol)
  else none

/-- What kind of block it is, in a word. -/
def kindText : Option Block → String
  | some (.literal ..) => "literal"
  | some (.proc _) => "proc"
  | some (.symbol _) => "symbol"
  | none => "none"

end Block

/-- What a Proc runs. -/
inductive ProcBody where
  /-- Code in the scope it closes over. -/
  | code (fn : FnId)
  /-- A function of the host, by name. -/
  | host (name : String)
  /-- Sends a method to the first argument. -/
  | send (name : Ident)
  /-- Suspends the running fiber with the arguments as its value. -/
  | emit
  deriving DecidableEq

structure Proc where
  body : ProcBody
  self : Value := .nil
  /-- The scope the body runs in, or nil. -/
  outer : Value := .nil
  lambda : Bool := false

end RubyMachine
