import RubyMachine.Code.Opcode
import RubyMachine.Code.Sequence
import RubyMachine.Defect

/-! Assembling a sequence: emitters append instructions, labels stand for offsets not yet known. -/

namespace RubyMachine.Code

/-- A jump target. Until it is placed, it keeps the offsets of the distances that wait for it. -/
inductive Label where
  | waiting (sites : List Nat)
  | placed (position : Nat)

structure Builder where
  seq : Sequence
  labels : Array Label

namespace Builder

def new (name : Ident) (kind : SequenceKind) : Builder := ⟨{ name, kind }, #[]⟩

def length (b : Builder) : Nat := b.seq.code.size

/-! ## Side tables -/

/-- Declares a local and gives its slot. A named local declared again keeps its slot. -/
def addLocal (b : Builder) (name : Ident) : Nat × Builder :=
  match b.seq.slotOf? name with
  | some i => if name = .none then append b else (i, b)
  | none => append b
where
  append (b : Builder) : Nat × Builder :=
    (b.seq.locals.size, { b with seq.locals := b.seq.locals.push name })

def setParams (b : Builder) (p : Params) : Builder := { b with seq.params := p }

def markKwRest (b : Builder) (slot : Nat) : Builder :=
  { b with seq.kwRestSlot := some (UInt32.ofNat slot), seq.params.kwRest := true }

def markBlock (b : Builder) (slot : Nat) : Builder :=
  { b with seq.blockSlot := some (UInt32.ofNat slot), seq.params.block := true }

def markDelegate (b : Builder) (slot : Nat) : Builder :=
  { b with seq.delegateSlot := some (UInt32.ofNat slot), seq.params.delegate := true }

def addConst (b : Builder) (v : Value) : Nat × Builder :=
  (b.seq.consts.size, { b with seq.consts := b.seq.consts.push v })

def addLine (b : Builder) (line : Int) : Builder :=
  { b with seq.lines := b.seq.lines ++ [⟨b.length, line⟩] }

def addHandler (b : Builder) (h : Handler) : Builder :=
  { b with seq.handlers := b.seq.handlers ++ [h] }

def setPath (b : Builder) (path : String) : Builder := { b with seq.path := path }

/-! ## Emitters -/

def append (b : Builder) (bytes : List UInt8) : Builder :=
  { b with seq.code := b.seq.code ++ bytes.toArray }

def emitByte (b : Builder) (byte : UInt8) : Builder := b.append [byte]

def emit (b : Builder) (op : Opcode) : Builder := b.emitByte op.byte

def emitU32 (b : Builder) (op : Opcode) (n : UInt32) : Builder :=
  b.append (op.byte :: Bytes.le32 n)

/-- Pushes a value that needs no heap cell and no frame. -/
def emitPush (b : Builder) (v : Value) : Except Defect Builder :=
  if v.isRef || v.isFrame || v.isBlock then .error .notImmediate
  else .ok (b.append (Opcode.pushVal.byte :: Bytes.le64 v.bits))

def emitPushInt (b : Builder) (n : Int) : Except Defect Builder := do
  b.emitPush (← Value.fixnum n)

def emitPushFloat (b : Builder) (bits : UInt64) : Builder :=
  b.append (Opcode.pushFlonum.byte :: Bytes.le64 bits)

def emitConst (b : Builder) (v : Value) : Builder :=
  let (i, b) := b.addConst v
  b.emitU32 .constVal (UInt32.ofNat i)

/-- A slot of the scope `outer` levels out. -/
def emitDynLocal (b : Builder) (op : Opcode) (slot outer : UInt32) : Builder :=
  b.append (op.byte :: Bytes.le32 slot ++ Bytes.le32 outer)

def emitGetConst (b : Builder) (name : Ident) : Builder :=
  let site := UInt32.ofNat b.seq.constSites.toNat
  let b := b.append (Opcode.getConst.byte :: Bytes.le32 name.id ++ Bytes.le32 site)
  { b with seq.constSites := b.seq.constSites + 1 }

def countSite (b : Builder) : Builder :=
  { b with seq.methodSites := b.seq.methodSites + 1 }

def emitSend (b : Builder) (name : Ident) (argc : UInt16) (flags : UInt8) (block : FnId) : Builder :=
  countSite (b.append (Opcode.send.byte :: Bytes.le32 name.id ++ Bytes.le16 argc ++ [flags] ++
    Bytes.le32 block.id ++ Bytes.le32 (UInt32.ofNat b.seq.methodSites.toNat)))

/-- A send without flags; with `discard` its result is dropped. -/
def emitOptSend (b : Builder) (name : Ident) (argc : UInt16) (block : FnId) (discard : Bool) :
    Builder :=
  let op := if discard then Opcode.optSendN else Opcode.optSend
  countSite (b.append (op.byte :: Bytes.le32 name.id ++ Bytes.le16 argc ++ Bytes.le32 block.id ++
    Bytes.le32 (UInt32.ofNat b.seq.methodSites.toNat)))

def emitSuper (b : Builder) (argc : UInt16) (block : FnId) (flags : UInt8) : Builder :=
  b.append (Opcode.super.byte :: Bytes.le16 argc ++ Bytes.le32 block.id ++ [flags])

def emitDefMethod (b : Builder) (name : Ident) (method : FnId) (singleton : Bool) : Builder :=
  let op := if singleton then Opcode.defSingletonMethod else Opcode.defMethod
  b.append (op.byte :: Bytes.le32 name.id ++ Bytes.le32 method.id)

def emitDefClass (b : Builder) (isModule : Bool) (name : Ident) (body : FnId) : Builder :=
  b.append (Opcode.defClass.byte :: (if isModule then 1 else 0) :: Bytes.le32 name.id ++
    Bytes.le32 body.id)

/-! ## Labels -/

def newLabel (b : Builder) : Nat × Builder :=
  (b.labels.size, { b with labels := b.labels.push (.waiting []) })

/-- The distance from the end of the four bytes at `site` to `position`. -/
def distance (site position : Nat) : UInt32 :=
  (Int32.ofInt ((position : Int) - (site + 4))).toUInt32

/-- Places a label here and fills in the distances that waited for it. -/
def mark (b : Builder) (label : Nat) : Except Defect Builder :=
  match b.labels.getD label (.waiting []) with
  | .placed _ => .error .labelTwice
  | .waiting sites =>
    let here := b.length
    .ok { b with
      seq.code := sites.foldl (fun code site => code.overwrite site (Bytes.le32 (distance site here)))
        b.seq.code
      labels := b.labels.setIfInBounds label (.placed here) }

def emitDistance (b : Builder) (label : Nat) : Builder :=
  match b.labels.getD label (.waiting []) with
  | .placed position => b.append (Bytes.le32 (distance b.length position))
  | .waiting sites =>
    let b := { b with labels := b.labels.setIfInBounds label (.waiting (sites ++ [b.length])) }
    b.append (Bytes.le32 0)

/-- The operation of an instruction that may be missing from the table: a jump by name. -/
def emitJump (b : Builder) (byte : UInt8) (label : Nat) : Except Defect Builder :=
  match Opcode.ofByte? byte with
  | some op =>
    if op.size = 5 ∧ op.isJump then .ok ((b.emit op).emitDistance label)
    else .error (.notPlainJump op.mnemonic)
  | none => .error (.notPlainJump (Opcode.nameOfByte byte))

/-- A comparison with an immediate number that jumps when it does not hold. -/
def emitJumpImm (b : Builder) (byte : UInt8) (imm : UInt32) (label : Nat) : Except Defect Builder :=
  match Opcode.ofByte? byte with
  | some op =>
    if op.size = 9 ∧ op.isJump then .ok ((b.emitU32 op imm).emitDistance label)
    else .error (.notImmediateJump op.mnemonic)
  | none => .error (.notImmediateJump (Opcode.nameOfByte byte))

/-! ## The finished sequence -/

def isPlaced : Label → Bool
  | .placed _ => true
  | .waiting _ => false

/-- The sequence, when every label has its place. -/
def build (b : Builder) : Except Defect Sequence :=
  if b.labels.all isPlaced then .ok b.seq else .error (.unresolvedLabel b.seq.name)

end Builder

end RubyMachine.Code
