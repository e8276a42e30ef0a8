import RubyMachine.Code.Opcode
import RubyMachine.Value

/-! Moving bytecode to another numbering of names and functions. -/

namespace RubyMachine.Code

/-- Why code cannot be walked instruction by instruction. -/
inductive WalkError where
  | unknownOpcode (offset : Nat) (byte : UInt8)
  | truncated (offset : Nat) (op : Opcode)

def WalkError.message : WalkError → String
  | unknownOpcode pc b => "offset " ++ toString pc ++ ": unknown opcode " ++ toString b.toNat
  | truncated pc op => "offset " ++ toString pc ++ ": " ++ op.mnemonic ++ " truncated"

/-- Where the names and the functions of an instruction stand, its opcode byte being at 0. -/
structure Layout where
  idents : List Nat := []
  fns : List Nat := []

def Opcode.layout : Opcode → Layout
  | .createProc => { fns := [1] }
  | .getConst | .setConst => { idents := [1] }
  | .getConstTop | .getScope | .getIvar | .setIvar | .getGvar | .setGvar | .getCvar
  | .setCvar => { idents := [1] }
  | .checkConst | .checkScope | .checkIvar | .checkGvar | .checkMethod => { idents := [1] }
  | .send => { idents := [1], fns := [8] }
  | .optSend | .optSendN => { idents := [1], fns := [7] }
  | .super => { fns := [3] }
  | .defClass => { idents := [2], fns := [6] }
  | .defSingletonClass => { fns := [1] }
  | .defMethod | .defSingletonMethod => { idents := [1], fns := [5] }
  | _ => {}

/-- How names and functions are renumbered; a part left out is kept. -/
structure Relocator (m : Type → Type) where
  ident : Option (Ident → m Ident)
  fn : Option (FnId → m FnId)

namespace Relocator

variable {m : Type → Type} [Monad m]

/-- A symbol among the immediate values is a name. -/
def symbolAt (r : Relocator m) (code : Bytes) (pos : Nat) : m Bytes :=
  match r.ident, code.u64At? pos with
  | some f, some w =>
    let v := Value.mk w
    if v.isSymbol then return code.overwrite pos (Bytes.le64 (Value.ofSymbol (← f v.toSymbol)).bits)
    else return code
  | _, _ => return code

def identAt (r : Relocator m) (code : Bytes) (pos : Nat) : m Bytes :=
  match r.ident, code.u32At? pos with
  | some f, some n => return code.overwrite pos (Bytes.le32 (← f ⟨n⟩).id)
  | _, _ => return code

/-- Function 0 means none and is never renumbered. -/
def fnAt (r : Relocator m) (code : Bytes) (pos : Nat) : m Bytes :=
  match r.fn, code.u32At? pos with
  | some f, some n =>
    if n = 0 then return code else return code.overwrite pos (Bytes.le32 (← f ⟨n⟩).id)
  | _, _ => return code

/-- Renumbers the instruction at `pc`. -/
def rewrite (r : Relocator m) (op : Opcode) (code : Bytes) (pc : Nat) : m Bytes := do
  let code ← if op = .pushVal then r.symbolAt code (pc + 1) else pure code
  let code ← op.layout.idents.foldlM (fun code i => r.identAt code (pc + i)) code
  op.layout.fns.foldlM (fun code i => r.fnAt code (pc + i)) code

/-- Renumbers code of length `n` from `pc` on, `fuel` instructions at most. What stands before the
offset of an error is renumbered. -/
def walk (r : Relocator m) (n : Nat) : Nat → Bytes → Nat → m (Bytes × Option WalkError)
  | 0, code, _ => return (code, none)
  | fuel + 1, code, pc =>
    if pc < n then
      match Opcode.ofByte? (code.getD pc 0) with
      | none => return (code, some (.unknownOpcode pc (code.getD pc 0)))
      | some op =>
        if n < pc + op.size then return (code, some (.truncated pc op))
        else do
          let code ← r.rewrite op code pc
          r.walk n fuel code (pc + op.size)
    else return (code, none)

/-- An instruction takes a byte at least, so the walk never ends for want of fuel. -/
def apply (r : Relocator m) (code : Bytes) : m (Bytes × Option WalkError) :=
  r.walk code.size code.size code 0

end Relocator

/-- The functions that code refers to, in order of appearance, up to the first error. -/
def functionOperands (code : Bytes) : List FnId × Option WalkError :=
  let note : Relocator (StateM (List FnId)) :=
    { ident := none, fn := some fun f => do modify (f :: ·); return f }
  let ((_, err), seen) := (note.apply code).run []
  (seen.reverse, err)

end RubyMachine.Code
