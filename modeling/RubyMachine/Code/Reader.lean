import RubyMachine.Code.Opcode
import RubyMachine.Defect
import RubyMachine.Number.Word

/-! Reading bytecode from a position. Every read that fails leaves the position where it was. -/

namespace RubyMachine.Code

structure Reader where
  code : Bytes
  pos : Int

namespace Reader

def new (code : Bytes) : Reader := ⟨code, 0⟩

def hasMore (r : Reader) : Bool := r.pos < r.code.size

def skip (r : Reader) (n : Int) : Reader := { r with pos := r.pos + n }

def seek (r : Reader) (pos : Int) : Reader := { r with pos }

/-- Reads `width` bytes with `get`, which is given their offset. Positions are integers of 64 bits. -/
def take {α : Type} (width : Nat) (get : Bytes → Nat → Option α) (r : Reader) :
    Except Defect (α × Reader) :=
  if (r.code.size : Int) < Number.wrap (r.pos + width) then .error .codeUnderflow
  else if r.pos < 0 then .error .fault
  else match get r.code r.pos.toNat with
    | some a => .ok (a, { r with pos := r.pos + width })
    | none => .error .fault

def u8 : Reader → Except Defect (UInt8 × Reader) := take 1 fun b i => b[i]?
def u16 : Reader → Except Defect (UInt16 × Reader) := take 2 Bytes.u16At?
def u32 : Reader → Except Defect (UInt32 × Reader) := take 4 Bytes.u32At?
def u64 : Reader → Except Defect (UInt64 × Reader) := take 8 Bytes.u64At?

def i32 (r : Reader) : Except Defect (Int32 × Reader) := do
  let (n, r) ← r.u32
  return (n.toInt32, r)

end Reader

end RubyMachine.Code
