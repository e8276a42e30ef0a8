import RubyMachine.Value

/-! Names and their numbers. A table only grows, and a name keeps its number. -/

namespace RubyMachine

structure IdentTable where
  names : Array String

namespace Ident

def none : Ident := ⟨0⟩
def initializer : Ident := ⟨1⟩
def object : Ident := ⟨2⟩
def each : Ident := ⟨4⟩
def map : Ident := ⟨5⟩
def withIndex : Ident := ⟨6⟩
def toS : Ident := ⟨11⟩
def add : Ident := ⟨12⟩
def sub : Ident := ⟨13⟩
def mul : Ident := ⟨14⟩
def div : Ident := ⟨15⟩
def rem : Ident := ⟨16⟩
def eq : Ident := ⟨17⟩
def ne : Ident := ⟨18⟩
def lt : Ident := ⟨19⟩
def le : Ident := ⟨20⟩
def gt : Ident := ⟨21⟩
def ge : Ident := ⟨22⟩
def cmp : Ident := ⟨23⟩
def teq : Ident := ⟨26⟩
def shl : Ident := ⟨27⟩
def shr : Ident := ⟨28⟩
def pow : Ident := ⟨29⟩
def bitOr : Ident := ⟨30⟩
def bitAnd : Ident := ⟨31⟩
def bitXor : Ident := ⟨32⟩
def neg : Ident := ⟨34⟩

end Ident

namespace IdentTable

/-- The names every table starts with, so that their numbers are known in advance. -/
def predefined : Array String := #[
  "", "initialize", "Object", "new", "each", "map", "with_index", "call", "to_proc",
  "method_missing", "inspect", "to_s", "+", "-", "*", "/", "%", "==", "!=", "<", "<=", ">", ">=",
  "<=>", "[]", "[]=", "===", "<<", ">>", "**", "|", "&", "^", "!", "-@"]

def empty : IdentTable := ⟨predefined⟩

def size (t : IdentTable) : Nat := t.names.size

def lookup? (t : IdentTable) (name : String) : Option Ident :=
  (t.names.findIdx? (· == name)).map fun i => ⟨UInt32.ofNat i⟩

def intern (t : IdentTable) (name : String) : Ident × IdentTable :=
  match t.lookup? name with
  | some i => (i, t)
  | none => (⟨UInt32.ofNat t.size⟩, ⟨t.names.push name⟩)

def internAll (t : IdentTable) : List String → List Ident × IdentTable
  | [] => ([], t)
  | n :: ns =>
    let (i, t) := t.intern n
    let (is, t) := t.internAll ns
    (i :: is, t)

/-- The name of a number; a number not yet given has the empty name. -/
def name (t : IdentTable) (i : Ident) : String := t.names.getD i.id.toNat ""

end IdentTable

end RubyMachine
