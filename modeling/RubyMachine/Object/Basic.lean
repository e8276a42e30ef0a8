import RubyMachine.Block
import RubyMachine.Failure
import RubyMachine.Object.Dict

/-! What a heap cell holds. -/

namespace RubyMachine

/-- A frame on the heap. Its words are laid out like those of a stack frame: the receiver, the local
slots, the receiver again, and from `base` on the control words. -/
structure Scope where
  words : Array Value
  base : Nat
  /-- The reference to the scope itself. -/
  self : Value

/-- The iteration that an enumerator wraps: a method call that yields values to its block. -/
structure Iteration where
  receiver : Value
  method : Ident
  args : List Value

structure Enumerator where
  iteration : Iteration
  /-- The fiber that is advanced by `next`, nil before the first. -/
  fiber : Value := .nil

inductive Object where
  /-- An instance of a class, with its instance variables by slot; slots not there are nil. -/
  | instance (cls : Nat) (slots : Array Value)
  | array (elems : Array Value)
  | string (text : String)
  | dict (entries : Dict)
  /-- A value that a call site spreads over the arguments. -/
  | splat (value : Value)
  | exception (failure : Failure)
  | proc (p : Proc)
  | scope (s : Scope)
  /-- A fiber, by its number. -/
  | fiber (id : Nat)
  | enumerator (e : Enumerator)
  /-- A class or module, by its number. -/
  | module (id : Nat)

namespace Object

/-- The value of an instance variable by slot. -/
def slotAt (slots : Array Value) (i : Nat) : Value := slots.getD i .nil

/-- Stores an instance variable; slots in between become nil. -/
def setSlot (slots : Array Value) (i : Nat) (v : Value) : Array Value :=
  if i < slots.size then slots.setIfInBounds i v
  else (slots ++ Array.replicate (i - slots.size) Value.nil).push v

end Object

end RubyMachine
