import RubyMachine.Value

/-! Dictionaries in insertion order. String keys are equal when they had equal contents at the time
they were stored; all other keys are equal as words. -/

namespace RubyMachine

/-- What two equal keys have in common. -/
inductive DictKey where
  | text (s : String)
  | word (v : Value)
  deriving DecidableEq

structure DictEntry where
  id : DictKey
  key : Value
  value : Value

structure Dict where
  entries : Array DictEntry := #[]

namespace Dict

def size (d : Dict) : Nat := d.entries.size

def find? (d : Dict) (id : DictKey) : Option Value :=
  (d.entries.find? fun e => e.id == id).map DictEntry.value

/-- Stores a value; a key that is there already keeps its place and its own word. -/
def insert (d : Dict) (id : DictKey) (key value : Value) : Dict :=
  match d.entries.findIdx? fun e => e.id == id with
  | some i => ⟨d.entries.modify i fun e => { e with value }⟩
  | none => ⟨d.entries.push ⟨id, key, value⟩⟩

def keys (d : Dict) : List Value := d.entries.toList.map DictEntry.key

/-- Keys and values in order. -/
def toList (d : Dict) : List (Value × Value) := d.entries.toList.map fun e => (e.key, e.value)

end Dict

end RubyMachine
