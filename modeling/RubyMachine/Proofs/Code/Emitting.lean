import RubyMachine.Proofs.Code.Drafts
import RubyMachine.Proofs.Value.Kinds

/-! Builders hold what was drafted: the bytes of the instructions that were emitted, with the distances to labels that
were marked, and for each other label where its distances wait (`Assembles.run`). -/

namespace RubyMachine.Code

/-! ## Calls of a builder -/

/-- A call of a builder. A label is named by how many were created before it. -/
inductive Call where
  | newLabel
  | mark (label : Nat)
  | emit (op : Opcode)
  | emitU32 (op : Opcode) (n : UInt32)
  | emitPush (v : Value)
  | emitPushInt (n : Int)
  | emitPushFloat (bits : UInt64)
  | emitConst (v : Value)
  | emitDynLocal (op : Opcode) (slot outer : UInt32)
  | emitGetConst (name : Ident)
  | emitSend (name : Ident) (argc : UInt16) (flags : UInt8) (block : FnId)
  | emitOptSend (name : Ident) (argc : UInt16) (block : FnId) (discard : Bool)
  | emitSuper (argc : UInt16) (block : FnId) (flags : UInt8)
  | emitDefMethod (name : Ident) (method : FnId) (singleton : Bool)
  | emitDefClass (isModule : Bool) (name : Ident) (body : FnId)
  | emitJump (op : Opcode) (label : Nat)
  | emitJumpImm (op : Opcode) (imm : UInt32) (label : Nat)

/-- The builder makes a call. -/
def Builder.call (b : Builder) : Call → Except Defect Builder
  | .newLabel => .ok b.newLabel.2
  | .mark l => b.mark l
  | .emit op => .ok (b.emit op)
  | .emitU32 op n => .ok (b.emitU32 op n)
  | .emitPush v => b.emitPush v
  | .emitPushInt n => b.emitPushInt n
  | .emitPushFloat bits => .ok (b.emitPushFloat bits)
  | .emitConst v => .ok (b.emitConst v)
  | .emitDynLocal op slot outer => .ok (b.emitDynLocal op slot outer)
  | .emitGetConst name => .ok (b.emitGetConst name)
  | .emitSend name argc flags block => .ok (b.emitSend name argc flags block)
  | .emitOptSend name argc block discard => .ok (b.emitOptSend name argc block discard)
  | .emitSuper argc block flags => .ok (b.emitSuper argc block flags)
  | .emitDefMethod name method singleton => .ok (b.emitDefMethod name method singleton)
  | .emitDefClass isModule name body => .ok (b.emitDefClass isModule name body)
  | .emitJump op l => b.emitJump op.byte l
  | .emitJumpImm op imm l => b.emitJumpImm op.byte imm l

namespace Call

/-- The instruction that a call emits after a draft. -/
def instr? (d : Draft) : Call → Option Instr
  | .newLabel | .mark _ => none
  | .emit op => some ⟨op, []⟩
  | .emitU32 op n => some ⟨op, [.field (.u32 n)]⟩
  | .emitPush v => some ⟨.pushVal, [.field (.u64 v.bits)]⟩
  | .emitPushInt n => some ⟨.pushVal, [.field (.u64 (Value.ofInt n).bits)]⟩
  | .emitPushFloat bits => some ⟨.pushFlonum, [.field (.u64 bits)]⟩
  | .emitConst v => some ⟨.constVal, [.literal d.literals.length v]⟩
  | .emitDynLocal op slot outer => some ⟨op, [.field (.u32 slot), .field (.u32 outer)]⟩
  | .emitGetConst name => some ⟨.getConst, [.field (.u32 name.id), .constSite d.reads]⟩
  | .emitSend name argc flags block => some ⟨.send, [.field (.u32 name.id), .field (.u16 argc), .field (.u8 flags),
      .field (.u32 block.id), .methodSite d.sends]⟩
  | .emitOptSend name argc block discard => some ⟨if discard then .optSendN else .optSend,
      [.field (.u32 name.id), .field (.u16 argc), .field (.u32 block.id), .methodSite d.sends]⟩
  | .emitSuper argc block flags => some ⟨.super, [.field (.u16 argc), .field (.u32 block.id), .field (.u8 flags)]⟩
  | .emitDefMethod name method singleton => some ⟨if singleton then .defSingletonMethod else .defMethod,
      [.field (.u32 name.id), .field (.u32 method.id)]⟩
  | .emitDefClass isModule name body => some ⟨.defClass,
      [.field (.u8 (if isModule then 1 else 0)), .field (.u32 name.id), .field (.u32 body.id)]⟩
  | .emitJump op l => some ⟨op, [.target l]⟩
  | .emitJumpImm op imm l => some ⟨op, [.field (.u32 imm), .target l]⟩

/-- The call can be made after a draft: opcodes have the size of what is emitted, values pushed are immediate, labels
were created, and none is marked twice. -/
def Proper (d : Draft) : Call → Prop
  | .mark l => l < d.labels ∧ d.place l = none
  | .emit op => op.size = 1
  | .emitU32 op _ => op.size = 5
  | .emitPush v => (v.isRef || v.isFrame || v.isBlock) = false
  | .emitPushInt n => Value.minFixnum ≤ n ∧ n ≤ Value.maxFixnum
  | .emitDynLocal op _ _ => op.size = 9
  | .emitJump op l => op.size = 5 ∧ op.isJump = true ∧ l < d.labels
  | .emitJumpImm op _ l => op.size = 9 ∧ op.isJump = true ∧ l < d.labels
  | _ => True

end Call

/-- A draft after one more call. -/
def Draft.call (d : Draft) (c : Call) : Draft :=
  match c with
  | .newLabel => d.newLabel
  | .mark l => d.mark l
  | c => (c.instr? d).elim d d.emit

/-- Every call can be made when it is. -/
def Draft.Proper : Draft → List Call → Prop
  | _, [] => True
  | d, c :: cs => c.Proper d ∧ (d.call c).Proper cs

/-- What is drafted by calls from the start. -/
def draft (cs : List Call) : Draft := cs.foldl Draft.call {}

/-! ## Drafts and builders -/

/-- Counters and places that an operand refers to are there. -/
def Part.Known (d : Draft) : Part → Prop
  | .field _ => True
  | .literal i v => d.literals[i]? = some v
  | .methodSite i => i < d.sends
  | .constSite i => i < d.reads
  | .target l => l < d.labels

/-- A builder holds what was drafted: the distances to labels that have a place, and for the others where they wait. -/
structure Assembles (d : Draft) (b : Builder) : Prop where
  sized : ∀ i ∈ d.instrs, i.op.size = Part.widths i.parts
  known : ∀ a ∈ d.parts, a.Known d
  last : ∀ i ∈ d.instrs, ∀ as l bs, i.args = as ++ .target l :: bs → bs = []
  code : b.seq.code.toList = Part.render d.place 0 d.parts
  count : b.labels.size = d.labels
  label : ∀ l < d.labels, b.labels.getD l (.waiting []) = (d.place l).elim (.waiting (Part.sites l 0 d.parts)) .placed
  placed : ∀ l p, d.place l = some p → l < d.labels ∧ p ≤ d.size
  literals : b.seq.consts.toList = d.literals
  methodSites : b.seq.methodSites = d.sends
  constSites : b.seq.constSites = d.reads

namespace Builder

variable {byte : UInt8} {op : Opcode}

theorem emitPushInt_eq (b : Builder) {n : Int} (hn : Value.minFixnum ≤ n ∧ n ≤ Value.maxFixnum) :
    b.emitPushInt n = .ok (b.append (Opcode.pushVal.byte :: Bytes.le64 (Value.ofInt n).bits)) := by
  have htag := Value.isFixnum_ofInt n
  have himm : ((Value.ofInt n).isRef || (Value.ofInt n).isFrame || (Value.ofInt n).isBlock) = false := by
    rw [Value.isRef, Value.isFrame, Value.isBlock, Value.hasTag_of_ne htag (by decide),
      Value.hasTag_of_ne htag (by decide), Value.hasTag_of_ne htag (by decide), Bool.or_self, Bool.or_self]
  rw [Builder.emitPushInt, Value.fixnum, Value.ofInt?, if_neg (by rw [not_or, not_lt, not_lt]; exact hn.symm)]
  exact if_neg (by rw [himm]; exact Bool.false_ne_true)

theorem emitJump_eq (b : Builder) (ho : Opcode.ofByte? byte = some op) (hs : op.size = 5) (hj : op.isJump = true)
    (l : Nat) : b.emitJump byte l = .ok ((b.emit op).emitDistance l) := by
  unfold emitJump
  rw [ho]
  dsimp only
  rw [if_pos ⟨hs, hj⟩]

theorem emitJumpImm_eq (b : Builder) (ho : Opcode.ofByte? byte = some op) (hs : op.size = 9) (hj : op.isJump = true)
    (imm : UInt32) (l : Nat) : b.emitJumpImm byte imm l = .ok ((b.emitU32 op imm).emitDistance l) := by
  unfold emitJumpImm
  rw [ho]
  dsimp only
  rw [if_pos ⟨hs, hj⟩]

theorem getD_place {labels : Array Label} {l : Nat} (hl : l < labels.size) (x : Label) (k : Nat) :
    (labels.setIfInBounds l x).getD k (.waiting []) = if l = k then x else labels.getD k (.waiting []) := by
  rw [Array.getD_eq_getD_getElem?, Array.getD_eq_getD_getElem?, Array.getElem?_setIfInBounds]
  split_ifs <;> rfl

end Builder

namespace Assembles

variable {d : Draft} {b b' : Builder} {i : Instr} {l : Nat}

theorem widths_parts (h : Assembles d b) : Part.widths d.parts = d.size := by
  have hsum (is : List Instr) (hs : ∀ i ∈ is, i.op.size = Part.widths i.parts) :
      Part.widths (is.flatMap Instr.parts) = (is.map fun i => i.op.size).sum := by
    induction is with
    | nil => rfl
    | cons i is ih =>
      rw [List.flatMap_cons, Part.widths_append, ih fun j hj => hs j (List.mem_cons_of_mem _ hj), List.map_cons,
        List.sum_cons, hs i List.mem_cons_self]
  exact hsum d.instrs h.sized

theorem length_eq (h : Assembles d b) : b.length = d.size := by
  rw [Builder.length, ← Array.length_toList, h.code, Part.length_render, h.widths_parts]

theorem new (name : Ident) (kind : SequenceKind) : Assembles {} (.new name kind) where
  sized := nofun
  known := nofun
  last := nofun
  code := rfl
  count := rfl
  label := nofun
  placed := nofun
  literals := rfl
  methodSites := rfl
  constSites := rfl

/-- One more instruction, when the builder notes where it names labels. -/
theorem emit (h : Assembles d b) (hsize : i.op.size = Part.widths i.parts) (hknown : ∀ a ∈ i.args, a.Known (d.emit i))
    (hlast : ∀ as l bs, i.args = as ++ .target l :: bs → bs = [])
    (hcode : b'.seq.code.toList = b.seq.code.toList ++ Part.render d.place d.size i.parts)
    (hcount : b'.labels.size = b.labels.size)
    (hlabel : ∀ l < d.labels, b'.labels.getD l (.waiting []) = (d.place l).elim
      (.waiting (Part.sites l 0 d.parts ++ Part.sites l d.size i.parts)) .placed)
    (hliterals : b'.seq.consts.toList = b.seq.consts.toList ++ i.args.filterMap Part.literal?)
    (hmethods : b'.seq.methodSites = b.seq.methodSites + i.args.countP Part.isMethodSite)
    (hconsts : b'.seq.constSites = b.seq.constSites + i.args.countP Part.isConstSite) : Assembles (d.emit i) b' where
  sized j hj := by
    rcases List.mem_append.1 hj with hj | hj
    · exact h.sized j hj
    · rwa [List.mem_singleton.1 hj]
  known a ha := by
    rw [Draft.parts_emit] at ha
    rcases List.mem_append.1 ha with ha | ha
    · have ha := h.known a ha
      cases a with
      | field f => trivial
      | literal k v =>
        rw [Part.Known, Draft.literals_emit]
        exact List.getElem?_append_left (List.getElem?_eq_some_iff.1 ha).1 ▸ ha
      | methodSite k => exact Nat.lt_of_lt_of_le ha (by rw [Draft.sends_emit]; omega)
      | constSite k => exact Nat.lt_of_lt_of_le ha (by rw [Draft.reads_emit]; omega)
      | target l => exact ha
    · rcases List.mem_cons.1 ha with rfl | ha
      · trivial
      · exact hknown a ha
  last j hj := by
    rcases List.mem_append.1 hj with hj | hj
    · exact h.last j hj
    · rwa [List.mem_singleton.1 hj]
  code := by
    rw [hcode, h.code, Draft.parts_emit, Part.render_append, Nat.zero_add, h.widths_parts]
    rfl
  count := hcount.trans h.count
  label l hl := by
    rw [hlabel l hl, Draft.parts_emit, Part.sites_append, Nat.zero_add, h.widths_parts]
    rfl
  placed l p hl := by
    have hl := h.placed l p hl
    rw [Draft.size_emit]
    exact ⟨hl.1, Nat.le_add_right_of_le hl.2⟩
  literals := by rw [hliterals, h.literals, Draft.literals_emit]
  methodSites := by rw [hmethods, h.methodSites, Draft.sends_emit, Nat.cast_add]
  constSites := by rw [hconsts, h.constSites, Draft.reads_emit, Nat.cast_add]

/-! Instructions have numbers for operands, and then perhaps one that is not. -/

section

variable (op : Opcode) (fs : List Field) (as : List Part)

theorem render_fields (place : Nat → Option Nat) (site : Nat) : Part.render place site (fs.map .field ++ as) =
    fs.flatMap Field.bytes ++ Part.render place (site + (fs.flatMap Field.bytes).length) as := by
  induction fs generalizing site with
  | nil => rfl
  | cons f fs ih =>
    rw [List.map_cons, List.cons_append, Part.render, ih, List.flatMap_cons, List.append_assoc, List.length_append,
      Nat.add_assoc]
    rfl

theorem widths_fields : Part.widths (fs.map .field ++ as) = (fs.flatMap Field.bytes).length + Part.widths as := by
  have h := congrArg List.length (render_fields fs as (fun _ => none) 0)
  rwa [List.length_append, Part.length_render, Part.length_render] at h

theorem sites_fields (site : Nat) : Part.sites l site (fs.map .field ++ as) =
    Part.sites l (site + (fs.flatMap Field.bytes).length) as := by
  induction fs generalizing site with
  | nil => rfl
  | cons f fs ih =>
    rw [List.map_cons, List.cons_append, Part.sites, ih, List.flatMap_cons, List.length_append, Nat.add_assoc]
    · rfl
    · intro l hl
      cases hl

theorem literals_fields : (fs.map Part.field ++ as).filterMap Part.literal? = as.filterMap Part.literal? := by
  induction fs with
  | nil => rfl
  | cons f fs ih => exact ih

theorem countP_fields {p : Part → Bool} (hp : ∀ f, p (.field f) = false) :
    (fs.map Part.field ++ as).countP p = as.countP p := by
  induction fs with
  | nil => rfl
  | cons f fs ih => rw [List.map_cons, List.cons_append, List.countP_cons_of_neg (by rw [hp f]; exact Bool.false_ne_true), ih]

theorem last_fields (hone : as.length ≤ 1) {xs bs : List Part}
    (he : fs.map Part.field ++ as = xs ++ .target l :: bs) : bs = [] := by
  induction fs generalizing xs with
  | nil =>
    have hlen := congrArg List.length he
    simp only [List.map_nil, List.nil_append, List.length_append, List.length_cons] at hlen
    exact List.length_eq_zero_iff.1 (by omega)
  | cons f fs ih =>
    cases xs with
    | nil => cases (List.cons.inj he).1
    | cons x xs => exact ih (List.cons.inj he).2

variable {op fs as}

theorem emitFields (h : Assembles d b) (hsize : op.size = 1 + (fs.flatMap Field.bytes).length + Part.widths as)
    (hone : as.length ≤ 1) (hknown : ∀ a ∈ as, a.Known (d.emit ⟨op, fs.map .field ++ as⟩))
    (hcode : b'.seq.code = (b.append (op.byte :: (fs.flatMap Field.bytes ++
      Part.render d.place (d.size + 1 + (fs.flatMap Field.bytes).length) as))).seq.code)
    (hcount : b'.labels.size = b.labels.size)
    (hlabel : ∀ l < d.labels, b'.labels.getD l (.waiting []) = (d.place l).elim (.waiting (Part.sites l 0 d.parts ++
      Part.sites l (d.size + 1 + (fs.flatMap Field.bytes).length) as)) .placed)
    (hliterals : b'.seq.consts.toList = b.seq.consts.toList ++ as.filterMap Part.literal?)
    (hmethods : b'.seq.methodSites = b.seq.methodSites + as.countP Part.isMethodSite)
    (hconsts : b'.seq.constSites = b.seq.constSites + as.countP Part.isConstSite) :
    Assembles (d.emit ⟨op, fs.map .field ++ as⟩) b' := by
  refine h.emit ?_ (fun a ha => ?_) (fun xs l bs => last_fields fs as hone) ?_ hcount (fun l hl => ?_) ?_ ?_ ?_
  · rw [hsize, Instr.parts, Part.widths_cons, widths_fields, Nat.add_assoc]
    rfl
  · rcases List.mem_append.1 ha with ha | ha
    · obtain ⟨f, -, rfl⟩ := List.mem_map.1 ha
      trivial
    · exact hknown a ha
  · rw [hcode, Builder.append, Array.toList_append, Instr.parts, Part.render, render_fields]
    rfl
  · rw [hlabel l hl, Instr.parts, Part.sites, sites_fields]
    · rfl
    · intro l hl
      cases hl
  · rw [hliterals, literals_fields]
  · rw [hmethods, countP_fields _ _ fun _ => rfl]
  · rw [hconsts, countP_fields _ _ fun _ => rfl]

/-- One more instruction that names no label. -/
theorem emitPlain (h : Assembles d b) (op : Opcode) (fs : List Field) (as : List Part)
    (hsize : op.size = 1 + (fs.flatMap Field.bytes).length + Part.widths as)
    (hone : as.length ≤ 1) (hknown : ∀ a ∈ as, a.Known (d.emit ⟨op, fs.map .field ++ as⟩)) (hplain : ∀ l, .target l ∉ as)
    (hcode : b'.seq.code = (b.append (op.byte :: (fs.flatMap Field.bytes ++ Part.render d.place 0 as))).seq.code)
    (hlabels : b'.labels = b.labels)
    (hliterals : b'.seq.consts.toList = b.seq.consts.toList ++ as.filterMap Part.literal?)
    (hmethods : b'.seq.methodSites = b.seq.methodSites + as.countP Part.isMethodSite)
    (hconsts : b'.seq.constSites = b.seq.constSites + as.countP Part.isConstSite) :
    Assembles (d.emit ⟨op, fs.map .field ++ as⟩) b' := by
  refine h.emitFields hsize hone hknown ?_ (by rw [hlabels]) (fun l hl => ?_) hliterals hmethods hconsts
  · rw [hcode, Part.render_plain hplain]
  · rw [Part.sites_eq_nil (hplain l), List.append_nil, hlabels, h.label l hl]

/-- One more instruction whose operands are numbers. -/
theorem emitNumbers (h : Assembles d b) (op : Opcode) (fs : List Field)
    (hsize : op.size = 1 + (fs.flatMap Field.bytes).length) :
    Assembles (d.emit ⟨op, fs.map .field ++ []⟩) (b.append (op.byte :: (fs.flatMap Field.bytes ++ []))) :=
  h.emitPlain op fs [] hsize (by decide) (by simp) (by simp) rfl rfl (List.append_nil _).symm (Int.add_zero _).symm
    (Int.add_zero _).symm

/-- One more send, which gets a cache of its own. -/
theorem emitSite (h : Assembles d b) (op : Opcode) (fs : List Field)
    (hsize : op.size = 5 + (fs.flatMap Field.bytes).length) :
    Assembles (d.emit ⟨op, fs.map .field ++ [.methodSite d.sends]⟩) (b.append (op.byte ::
      (fs.flatMap Field.bytes ++ Bytes.le32 (UInt32.ofNat b.seq.methodSites.toNat)))).countSite := by
  have hm : b.seq.methodSites.toNat = d.sends := by rw [h.methodSites, Int.toNat_natCast]
  have hw : op.size = 1 + (fs.flatMap Field.bytes).length + Part.widths [.methodSite d.sends] := by
    rw [hsize]
    exact (by omega : 5 + (fs.flatMap Field.bytes).length = 1 + (fs.flatMap Field.bytes).length + 4)
  refine h.emitPlain op fs [.methodSite d.sends] hw le_rfl (fun a ha => ?_) (by simp) ?_ ?_ ?_ ?_ ?_
  · rw [List.mem_singleton.1 ha, Part.Known, Draft.sends_emit, countP_fields _ _ fun _ => rfl]
    exact Nat.lt_succ_self _
  · rw [Part.render, Part.render, Part.bytes, Part.stored, List.append_nil, hm]
    simp only [Builder.countSite, Field.bytes]
  · simp only [Builder.countSite, Builder.append]
  · simp only [Builder.countSite, Builder.append]
    exact (List.append_nil _).symm
  · simp only [Builder.countSite, Builder.append]
    rfl
  · simp only [Builder.countSite, Builder.append]
    exact (Int.add_zero _).symm

/-- One more instruction that ends with the distance to a label. -/
theorem emitTarget (h : Assembles d b) (hl : l < d.labels) (op : Opcode) (fs : List Field)
    (hsize : op.size = 5 + (fs.flatMap Field.bytes).length) :
    Assembles (d.emit ⟨op, fs.map .field ++ [.target l]⟩)
      ((b.append (op.byte :: fs.flatMap Field.bytes)).emitDistance l) := by
  have hlabel := h.label l hl
  have hlen : (b.append (op.byte :: fs.flatMap Field.bytes)).length = d.size + 1 + (fs.flatMap Field.bytes).length := by
    rw [← h.length_eq]
    simp [Builder.length, Builder.append]
    omega
  have hknown : ∀ a ∈ [Part.target l], a.Known (d.emit ⟨op, fs.map .field ++ [.target l]⟩) := by
    intro a ha
    rwa [List.mem_singleton.1 ha]
  have hw : op.size = 1 + (fs.flatMap Field.bytes).length + Part.widths [.target l] := by
    rw [hsize]
    exact (by omega : 5 + (fs.flatMap Field.bytes).length = 1 + (fs.flatMap Field.bytes).length + 4)
  have hsites {k : Nat} (hne : l ≠ k) (site : Nat) : Part.sites k site [.target l] = [] :=
    Part.sites_eq_nil fun hmem => hne (Part.target.inj (List.mem_singleton.1 hmem)).symm
  -- the distance follows the other operands
  have hcode (n : UInt32) (hn : n = (d.place l).elim 0 (Builder.distance (d.size + 1 + (fs.flatMap Field.bytes).length)))
      (labels : Array Label) : ({ b.append (op.byte :: fs.flatMap Field.bytes) with labels : Builder }.append
        (Bytes.le32 n)).seq.code = (b.append (op.byte :: (fs.flatMap Field.bytes ++
          Part.render d.place (d.size + 1 + (fs.flatMap Field.bytes).length) [.target l]))).seq.code := by
    rw [hn, Part.render, Part.render, Part.bytes, Part.stored, List.append_nil]
    simp [Builder.append, Field.bytes]
  unfold Builder.emitDistance
  rw [show (b.append (op.byte :: fs.flatMap Field.bytes)).labels = b.labels from rfl]
  cases hp : d.place l with
  | some p =>
    rw [hp, Option.elim_some] at hlabel
    rw [hlabel]
    refine h.emitFields hw le_rfl hknown (hcode _ (by rw [hp, hlen]; rfl) b.labels) rfl (fun k hk => ?_)
      (List.append_nil _).symm (Int.add_zero _).symm (Int.add_zero _).symm
    refine (h.label k hk).trans ?_
    by_cases hkl : l = k
    · rw [← hkl, hp]
      rfl
    · rw [hsites hkl, List.append_nil]
  | none =>
    rw [hp, Option.elim_none] at hlabel
    rw [hlabel]
    refine h.emitFields hw le_rfl hknown (hcode 0 (by rw [hp]; rfl) _) Array.size_setIfInBounds (fun k hk => ?_)
      (List.append_nil _).symm (Int.add_zero _).symm (Int.add_zero _).symm
    refine (Builder.getD_place (by rwa [h.count]) _ k).trans ?_
    by_cases hkl : l = k
    · rw [if_pos hkl, ← hkl, hp, hlen, Option.elim_none, Part.sites, if_pos rfl, Part.sites]
    · rw [if_neg hkl, hsites hkl, List.append_nil, h.label k hk]

end

theorem newLabel (h : Assembles d b) : Assembles d.newLabel b.newLabel.2 := by
  have hplace : d.place d.labels = none := Option.eq_none_iff_forall_not_mem.2 fun p hp =>
    Nat.lt_irrefl _ (h.placed _ p hp).1
  have hsites : Part.sites d.labels 0 d.parts = [] := Part.sites_eq_nil fun hmem => Nat.lt_irrefl _ (h.known _ hmem)
  constructor
  · exact h.sized
  · intro a ha
    have ha := h.known a ha
    cases a with
    | target l => exact Nat.lt_succ_of_lt ha
    | field | literal | methodSite | constSite => exact ha
  · exact h.last
  · exact h.code
  · exact (Array.size_push _).trans (congrArg (· + 1) h.count)
  · intro l hl
    show (b.labels.push (.waiting [])).getD l (.waiting []) = _
    rw [Array.getD_eq_getD_getElem?, Array.getElem?_push, h.count]
    split_ifs with he
    · rw [he]
      exact (by rw [show d.newLabel.place d.labels = none from hplace, show d.newLabel.parts = d.parts from rfl, hsites]; rfl)
    · rw [← Array.getD_eq_getD_getElem?]
      exact h.label l (by have : l < d.labels + 1 := hl; omega)
  · exact fun l p hp => ⟨Nat.lt_succ_of_lt (h.placed l p hp).1, (h.placed l p hp).2⟩
  · exact h.literals
  · exact h.methodSites
  · exact h.constSites

theorem mark (h : Assembles d b) (hl : l < d.labels) (hnew : d.place l = none) :
    ∃ b', b.mark l = .ok b' ∧ Assembles (d.mark l) b' := by
  have hlabel := h.label l hl
  rw [hnew, Option.elim_none] at hlabel
  unfold Builder.mark
  rw [hlabel]
  refine ⟨_, rfl, h.sized, h.known, h.last, ?_, Array.size_setIfInBounds.trans h.count, fun k hk => ?_, fun k p hp => ?_,
    h.literals, h.methodSites, h.constSites⟩
  · have hpatch := Part.toList_patch [] [] (p := b.length) hnew
      (by rw [h.code, List.nil_append, List.append_nil]; rfl)
    rw [List.nil_append, List.append_nil, h.length_eq] at hpatch
    rw [h.length_eq]
    exact hpatch
  · refine (Builder.getD_place (by rwa [h.count]) _ k).trans ?_
    show _ = (Function.update d.place l (some d.size) k).elim _ _
    by_cases hkl : l = k
    · rw [if_pos hkl, ← hkl, Function.update_self, h.length_eq]
      rfl
    · rw [if_neg hkl, Function.update_of_ne (Ne.symm hkl)]
      exact h.label k hk
  · replace hp : Function.update d.place l (some d.size) k = some p := hp
    by_cases hkl : k = l
    · subst hkl
      rw [Function.update_self] at hp
      cases hp
      exact ⟨hl, le_rfl⟩
    · rw [Function.update_of_ne hkl] at hp
      exact h.placed k p hp

/-- What a call leaves is what was drafted. -/
theorem call (h : Assembles d b) {c : Call} (hc : c.Proper d) : ∃ b', b.call c = .ok b' ∧ Assembles (d.call c) b' := by
  have hk : b.seq.constSites.toNat = d.reads := by rw [h.constSites, Int.toNat_natCast]
  cases c with
  | newLabel => exact ⟨_, rfl, h.newLabel⟩
  | mark l => exact h.mark hc.1 hc.2
  | emit op => exact ⟨_, rfl, h.emitNumbers op [] hc⟩
  | emitU32 op n => exact ⟨_, rfl, h.emitNumbers op [.u32 n] hc⟩
  | emitPush v => exact ⟨_, if_neg (by rw [hc]; exact Bool.false_ne_true), h.emitNumbers .pushVal [.u64 v.bits] rfl⟩
  | emitPushInt n => exact ⟨_, b.emitPushInt_eq hc, h.emitNumbers .pushVal [.u64 (Value.ofInt n).bits] rfl⟩
  | emitPushFloat bits => exact ⟨_, rfl, h.emitNumbers .pushFlonum [.u64 bits] rfl⟩
  | emitConst v =>
    refine ⟨_, rfl, h.emitPlain .constVal [] [.literal d.literals.length v] rfl le_rfl (fun a ha => ?_) (by simp)
      ?_ rfl ?_ ?_ ?_⟩
    · rw [List.mem_singleton.1 ha, Part.Known, Draft.literals_emit]
      exact List.getElem?_concat_length
    · rw [← h.literals, Array.length_toList]
      rfl
    · exact Array.toList_push
    · exact (Int.add_zero _).symm
    · exact (Int.add_zero _).symm
  | emitDynLocal op slot outer => exact ⟨_, rfl, h.emitNumbers op [.u32 slot, .u32 outer] hc⟩
  | emitGetConst name =>
    refine ⟨_, rfl, h.emitPlain .getConst [.u32 name.id] [.constSite d.reads] rfl le_rfl (fun a ha => ?_) (by simp)
      ?_ rfl (List.append_nil _).symm (Int.add_zero _).symm rfl⟩
    · rw [List.mem_singleton.1 ha, Part.Known, Draft.reads_emit]
      exact Nat.lt_succ_self _
    · rw [← hk]
      rfl
  | emitSend name argc flags block =>
    have he : b.emitSend name argc flags block = (b.append (Opcode.send.byte ::
        ([Field.u32 name.id, .u16 argc, .u8 flags, .u32 block.id].flatMap Field.bytes ++
          Bytes.le32 (UInt32.ofNat b.seq.methodSites.toNat)))).countSite := by
      simp [Builder.emitSend, Field.bytes]
    exact ⟨_, congrArg _ he, h.emitSite .send [.u32 name.id, .u16 argc, .u8 flags, .u32 block.id] rfl⟩
  | emitOptSend name argc block discard =>
    have he : b.emitOptSend name argc block discard = (b.append ((if discard then Opcode.optSendN else .optSend).byte ::
        ([Field.u32 name.id, .u16 argc, .u32 block.id].flatMap Field.bytes ++
          Bytes.le32 (UInt32.ofNat b.seq.methodSites.toNat)))).countSite := by
      simp [Builder.emitOptSend, Field.bytes]
    exact ⟨_, congrArg _ he, h.emitSite (if discard then .optSendN else .optSend)
      [.u32 name.id, .u16 argc, .u32 block.id] (by cases discard <;> rfl)⟩
  | emitSuper argc block flags => exact ⟨_, rfl, h.emitNumbers .super [.u16 argc, .u32 block.id, .u8 flags] rfl⟩
  | emitDefMethod name method singleton =>
    refine ⟨_, rfl, h.emitNumbers _ [.u32 name.id, .u32 method.id] ?_⟩
    cases singleton <;> rfl
  | emitDefClass isModule name body =>
    exact ⟨_, rfl, h.emitNumbers .defClass [.u8 (if isModule then 1 else 0), .u32 name.id, .u32 body.id] rfl⟩
  | emitJump op l =>
    obtain ⟨hsize, hjump, hl⟩ := hc
    exact ⟨_, b.emitJump_eq op.ofByte?_byte hsize hjump l, h.emitTarget hl op [] hsize⟩
  | emitJumpImm op imm l =>
    obtain ⟨hsize, hjump, hl⟩ := hc
    exact ⟨_, b.emitJumpImm_eq op.ofByte?_byte hsize hjump imm l, h.emitTarget hl op [.u32 imm] hsize⟩

/-- A whole run of calls. -/
theorem run (h : Assembles d b) {cs : List Call} (hc : d.Proper cs) :
    ∃ b', cs.foldlM Builder.call b = .ok b' ∧ Assembles (cs.foldl Draft.call d) b' := by
  induction cs generalizing d b with
  | nil => exact ⟨b, rfl, h⟩
  | cons c cs ih =>
    obtain ⟨b₁, hb₁, h₁⟩ := h.call hc.1
    obtain ⟨b₂, hb₂, h₂⟩ := ih h₁ hc.2
    exact ⟨b₂, by rw [List.foldlM_cons, hb₁]; exact hb₂, h₂⟩

end Assembles

end RubyMachine.Code
