import RubyMachine.Machine.Objects
import RubyMachine.Text.Quoted

/-! The text of values as a program sees it. -/

namespace RubyMachine

/-- A float always shows that it is one: a point, an exponent or a word. -/
def floatText (bits : UInt64) : String :=
  let s := Decimal.general bits
  if s.toList.any fun c => c == '.' || c == 'e' || c == 'n' then s else s ++ ".0"

namespace Machine

/-- The text of a value; `depth` bounds how far containers are nested. -/
def inspectTo (m : Machine) : Nat → Value → Except Defect String
  | 0, _ => .error .endless
  | depth + 1, v =>
    if v.isSymbol then .ok (":" ++ m.idents.name v.toSymbol)
    else if v.isFloat then .ok (floatText v.bits)
    else if !v.isRef then .ok v.text
    else do
      let o ← m.heap.read v.toRef
      match o with
      | .string s => return Text.quote s
      | .array elems =>
        let parts ← elems.toList.mapM (m.inspectTo depth)
        return "[" ++ ", ".intercalate parts ++ "]"
      | .dict d =>
        let parts ← d.toList.mapM fun (k, w) => do
          return (← m.inspectTo depth k) ++ " => " ++ (← m.inspectTo depth w)
        return "\x7b" ++ ", ".intercalate parts ++ "\x7d"
      | .module c => return m.classes.nameText m.idents c
      | .exception f => return "#<" ++ f.kind.text ++ ": " ++ f.message ++ ">"
      | .enumerator e =>
        let head ← m.inspectTo depth e.iteration.receiver
        let args ← e.iteration.args.mapM (m.inspectTo depth)
        return "#<Enumerator: " ++ head ++ ":" ++ m.idents.name e.iteration.method ++
          (if args.isEmpty then "" else "(" ++ ", ".intercalate args ++ ")") ++ ">"
      | .fiber f => return "#<Fiber (" ++ (m.fibers.getD f default).state.text ++ ")>"
      | o =>
        let c := Exec.objectClass m o
        if c = ClassTable.missing then throw .fault
        return "#<" ++ m.classes.nameText m.idents c ++ ">"

/-- Values can nest at most as deep as there are cells, unless they contain themselves. -/
def inspect (m : Machine) (v : Value) : Except Defect String :=
  m.inspectTo (m.heap.pages.size * Heap.pageCells + 2) v

end Machine

def Exec.inspect (v : Value) : Exec String := do (← get).inspect v

/-- A keyword as it was written. -/
def Exec.keywordText (k : Value) : Exec String := Exec.inspect k

end RubyMachine
