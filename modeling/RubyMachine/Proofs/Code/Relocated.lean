import RubyMachine.Proofs.Code.Assembled

/-! Renumbering assembled code gives what is assembled from renumbered calls (`relocate_assembled`): every name and
function that an emitter was given is renumbered once, in the order of the calls, and nothing else is. -/

namespace RubyMachine.Code

/-- What a builder makes of calls. -/
def assemble (name : Ident) (kind : SequenceKind) (cs : List Call) : Except Defect Sequence :=
  cs.foldlM Builder.call (.new name kind) >>= Builder.build

/-- The kind of an operand. -/
def Opcode.kind (op : Opcode) (i : Nat) : Operand := (op.operands[i]?).getD .count

/-- A slot and a scope are emitted for opcodes that take two operands. -/
def Call.Fits : Call → Prop
  | .emitDynLocal op _ _ => op.operands.length = 2
  | _ => True

namespace Relocator

/-! ## Calls in another numbering -/

section

variable {m : Type → Type} [Monad m] (r : Relocator m)

def name (i : Ident) : m Ident := r.ident.elim (pure i) fun f => f i

/-- Function 0 is none, in every numbering. -/
def function (g : FnId) : m FnId := if g.id = 0 then pure g else r.fn.elim (pure g) fun f => f g

/-- Among the values that are pushed, symbols are names. -/
def pushed (v : Value) : m Value :=
  if v.isSymbol then r.ident.elim (pure v) fun f => Value.ofSymbol <$> f v.toSymbol else pure v

/-- A number given for an operand whose kind says what it is. -/
def number (k : Operand) (n : UInt32) : m UInt32 :=
  match k with
  | .ident => Ident.id <$> r.name ⟨n⟩
  | .fn => FnId.id <$> r.function ⟨n⟩
  | _ => pure n

/-- The call in another numbering. -/
def call : Call → m Call
  | .emitU32 op n => Call.emitU32 op <$> r.number (op.kind 0) n
  | .emitPush v => Call.emitPush <$> r.pushed v
  | .emitDynLocal op slot outer => do
    return .emitDynLocal op (← r.number (op.kind 0) slot) (← r.number (op.kind 1) outer)
  | .emitGetConst name => Call.emitGetConst <$> r.name name
  | .emitSend name argc flags block => do return .emitSend (← r.name name) argc flags (← r.function block)
  | .emitOptSend name argc block discard => do return .emitOptSend (← r.name name) argc (← r.function block) discard
  | .emitSuper argc block flags => do return .emitSuper argc (← r.function block) flags
  | .emitDefMethod name method singleton => do return .emitDefMethod (← r.name name) (← r.function method) singleton
  | .emitDefClass isModule name body => do return .emitDefClass isModule (← r.name name) (← r.function body)
  | c => pure c

/-! ## Instructions in another numbering -/

def field (k : Operand) : Field → m Field
  | .u32 n => Field.u32 <$> r.number k n
  | .u64 w => if k = .value then (fun v => Field.u64 v.bits) <$> r.pushed ⟨w⟩ else pure (.u64 w)
  | f => pure f

def part (k : Operand) : Part → m Part
  | .field f => Part.field <$> r.field k f
  | a => pure a

def args : List Operand → List Part → m (List Part)
  | o :: os, a :: as => do return (← r.part o a) :: (← args os as)
  | _, as => pure as

def instr (i : Instr) : m Instr := Instr.mk i.op <$> r.args i.op.operands i.args

end

end Relocator

/-- What is given for an operand has its width. What stands for a number is a count, or a distance. -/
def Part.Fits (k : Operand) : Part → Prop
  | .field f => f.bytes.length = k.width
  | .target _ => k = .target
  | _ => k = .count

/-- An instruction is given the operands that its opcode takes. -/
def Instr.Fits (i : Instr) : Prop := List.Forall₂ (fun o a => a.Fits o) i.op.operands i.args

theorem Part.Fits.width {k : Operand} {a : Part} (h : a.Fits k) : a.width = k.width := by
  cases a with
  | field f => exact h
  | literal | methodSite | constSite | target => cases h; rfl

theorem Part.widths_of_fits {os : List Operand} {as : List Part} (h : List.Forall₂ (fun o a => a.Fits o) os as) :
    Part.widths as = Code.width os := by
  induction h with
  | nil => rfl
  | cons ha _ ih =>
    rw [Part.widths_cons, ih, ha.width]
    rfl

section

variable {op : Opcode}

theorem operands_of_size_one (h : op.size = 1) : op.operands = [] := by
  cases op <;> first | rfl | exact absurd h (by decide)

theorem operands_of_size_five (h : op.size = 5) : ∃ o, op.operands = [o] ∧ o.width = 4 := by
  cases op <;> first | exact ⟨_, rfl, rfl⟩ | exact absurd h (by decide)

theorem operands_of_size_nine (h : op.size = 9) (h2 : op.operands.length = 2) :
    ∃ o p, op.operands = [o, p] ∧ o.width = 4 ∧ p.width = 4 := by
  cases op <;> first | exact ⟨_, _, rfl, rfl, rfl⟩ | exact absurd h (by decide) | exact absurd h2 (by decide)

theorem operands_of_jump (h : op.size = 5) (hj : op.isJump = true) : op.operands = [.target] := by
  cases op <;> first | rfl | exact absurd h (by decide) | exact absurd hj (by decide)

theorem operands_of_jumpImm (h : op.size = 9) (hj : op.isJump = true) : op.operands = [.int, .target] := by
  cases op <;> first | rfl | exact absurd h (by decide) | exact absurd hj (by decide)

end

/-- Calls that can be made emit instructions with the operands that their opcodes take. -/
theorem Call.Fits.instr {c : Call} {d : Draft} {i : Instr} (hc : c.Fits) (hp : c.Proper d) (hi : c.instr? d = some i) :
    i.Fits := by
  cases c with
  | newLabel | mark => cases hi
  | emit op =>
    cases hi
    rw [Instr.Fits, operands_of_size_one hp]
    exact .nil
  | emitU32 op n =>
    cases hi
    obtain ⟨o, ho, hw⟩ := operands_of_size_five hp
    rw [Instr.Fits, ho]
    exact .cons hw.symm .nil
  | emitDynLocal op slot outer =>
    cases hi
    obtain ⟨o, p, hop, ho, hp⟩ := operands_of_size_nine hp hc
    rw [Instr.Fits, hop]
    exact .cons ho.symm (.cons hp.symm .nil)
  | emitJump op l =>
    cases hi
    rw [Instr.Fits, operands_of_jump hp.1 hp.2.1]
    exact .cons rfl .nil
  | emitJumpImm op imm l =>
    cases hi
    rw [Instr.Fits, operands_of_jumpImm hp.1 hp.2.1]
    exact .cons rfl (.cons rfl .nil)
  | emitPush | emitPushInt | emitPushFloat | emitConst => cases hi; exact .cons rfl .nil
  | emitGetConst => cases hi; exact .cons rfl (.cons rfl .nil)
  | emitSend => cases hi; exact .cons rfl (.cons rfl (.cons rfl (.cons rfl (.cons rfl .nil))))
  | emitOptSend name argc block discard =>
    cases hi
    cases discard <;> exact .cons rfl (.cons rfl (.cons rfl (.cons rfl .nil)))
  | emitSuper => cases hi; exact .cons rfl (.cons rfl (.cons rfl .nil))
  | emitDefMethod name method singleton =>
    cases hi
    cases singleton <;> exact .cons rfl (.cons rfl .nil)
  | emitDefClass => cases hi; exact .cons rfl (.cons rfl (.cons rfl .nil))

/-! ## What renumbering leaves alone -/

/-- What follows a computation may count on a property of its result. -/
structure Yields {m : Type → Type} [Monad m] {α : Type} (x : m α) (P : α → Prop) : Prop where
  congr : ∀ {β : Type} {f g : α → m β}, (∀ a, P a → f a = g a) → x >>= f = x >>= g

section

variable {m : Type → Type} [Monad m] {α β : Type} {x : m α} {P : α → Prop} {Q : β → Prop}

theorem Yields.of_forall (h : ∀ a, P a) : Yields x P := ⟨fun hfg => bind_congr fun a => hfg a (h a)⟩

variable [LawfulMonad m]

theorem Yields.map_congr {f g : α → β} (hx : Yields x P) (h : ∀ a, P a → f a = g a) : f <$> x = g <$> x := by
  rw [← bind_pure_comp, ← bind_pure_comp]
  exact hx.congr fun a ha => congrArg Pure.pure (h a ha)

theorem Yields.pure {a : α} (h : P a) : Yields (Pure.pure a : m α) P := by
  constructor
  intro β f g hfg
  rw [pure_bind, pure_bind, hfg a h]

theorem Yields.bind {k : α → m β} (hx : Yields x P) (hk : ∀ a, P a → Yields (k a) Q) : Yields (x >>= k) Q := by
  constructor
  intro γ f g hfg
  rw [bind_assoc, bind_assoc]
  exact hx.congr fun a ha => (hk a ha).congr hfg

theorem Yields.map {f : α → β} (hx : Yields x P) (hf : ∀ a, P a → Q (f a)) : Yields (f <$> x) Q := by
  rw [← bind_pure_comp]
  exact hx.bind fun a ha => .pure (hf a ha)

end

/-- Operands that differ in numbers only. -/
inductive Part.Like : Part → Part → Prop where
  | field {f g : Field} : g.bytes.length = f.bytes.length → Like (.field f) (.field g)
  | same (a : Part) : Like a a

theorem Part.Like.width {a b : Part} (h : a.Like b) : b.width = a.width := by
  cases h with
  | field h => exact h
  | same => rfl

theorem Part.widths_of_like {as bs : List Part} (h : List.Forall₂ Part.Like as bs) :
    Part.widths bs = Part.widths as := by
  induction h with
  | nil => rfl
  | cons ha _ ih => rw [Part.widths_cons, Part.widths_cons, ih, ha.width]

/-- Instructions that differ in numbers only. -/
structure Instr.Like (i j : Instr) : Prop where
  op : j.op = i.op
  args : List.Forall₂ Part.Like i.args j.args

/-- Drafts with the same labels and as many literals, sends, and reads of constants. -/
structure Draft.Like (d e : Draft) : Prop where
  labels : e.labels = d.labels
  place : e.place = d.place
  size : e.size = d.size
  literals : e.literals = d.literals
  sends : e.sends = d.sends
  reads : e.reads = d.reads

/-- The instructions that calls emit after a draft. -/
def Draft.emitted : Draft → List Call → List Instr
  | _, [] => []
  | d, c :: cs => (c.instr? d).toList ++ (d.call c).emitted cs

theorem Draft.instrs_foldl (d : Draft) (cs : List Call) :
    (cs.foldl Draft.call d).instrs = d.instrs ++ d.emitted cs := by
  induction cs generalizing d with
  | nil => simp [emitted]
  | cons c cs ih =>
    have hc : (d.call c).instrs = d.instrs ++ (c.instr? d).toList := by
      cases c <;> simp [Draft.call, Call.instr?, Draft.newLabel, Draft.mark, Draft.emit]
    rw [List.foldl_cons, ih, hc, emitted, List.append_assoc]

theorem Draft.fits_emitted {d : Draft} {cs : List Call} (hfits : ∀ c ∈ cs, c.Fits) (hp : d.Proper cs) :
    ∀ i ∈ d.emitted cs, i.Fits := by
  induction cs generalizing d with
  | nil => exact fun i hi => absurd hi List.not_mem_nil
  | cons c cs ih =>
    intro i hi
    rcases List.mem_append.1 hi with hi | hi
    · exact (hfits c List.mem_cons_self).instr hp.1 (Option.mem_toList.1 hi)
    · exact ih (fun c hc => hfits c (List.mem_cons_of_mem _ hc)) hp.2 i hi

/-- Calls after which drafts are alike if they were. -/
structure Call.Like (c c' : Call) : Prop where
  proper : ∀ {d e : Draft}, d.Like e → c.Proper d → c'.Proper e
  step : ∀ {d e : Draft}, d.Like e → (d.call c).Like (e.call c')

theorem Draft.Like.refl (d : Draft) : d.Like d := ⟨rfl, rfl, rfl, rfl, rfl, rfl⟩

theorem Draft.Like.emit {d e : Draft} {i j : Instr} (h : d.Like e) (hi : i.Like j) : (d.emit i).Like (e.emit j) := by
  have same {as bs : List Part} (h : List.Forall₂ Part.Like as bs) :
      bs.filterMap Part.literal? = as.filterMap Part.literal? ∧
      bs.countP Part.isMethodSite = as.countP Part.isMethodSite ∧
      bs.countP Part.isConstSite = as.countP Part.isConstSite := by
    induction h with
    | nil => exact ⟨rfl, rfl, rfl⟩
    | cons ha _ ih =>
      obtain ⟨hl, hm, hc⟩ := ih
      rw [List.countP_cons, List.countP_cons, List.countP_cons, List.countP_cons, hm, hc]
      cases ha with
      | field => exact ⟨hl, rfl, rfl⟩
      | same a =>
        rw [List.filterMap_cons, List.filterMap_cons, hl]
        exact ⟨rfl, rfl, rfl⟩
  have hargs := same hi.args
  constructor
  · exact h.labels
  · exact h.place
  · rw [Draft.size_emit, Draft.size_emit, h.size, hi.op]
  · rw [Draft.literals_emit, Draft.literals_emit, h.literals, hargs.1]
  · rw [Draft.sends_emit, Draft.sends_emit, h.sends, hargs.2.1]
  · rw [Draft.reads_emit, Draft.reads_emit, h.reads, hargs.2.2]

/-- The same call does the same after drafts alike. -/
theorem Call.Like.refl (c : Call) : c.Like c := by
  have hsame (i : Instr) : i.Like i := ⟨rfl, List.forall₂_same.2 fun a _ => .same a⟩
  constructor
  · intro d e h hp
    cases c with
    | mark l =>
      rw [Proper, h.labels, h.place]
      exact hp
    | emitJump | emitJumpImm =>
      rw [Proper, h.labels]
      exact hp
    | _ => exact hp
  · intro d e h
    cases c with
    | newLabel => exact ⟨congrArg (· + 1) h.labels, h.place, h.size, h.literals, h.sends, h.reads⟩
    | mark l =>
      refine ⟨h.labels, ?_, h.size, h.literals, h.sends, h.reads⟩
      show Function.update e.place l (some e.size) = Function.update d.place l (some d.size)
      rw [h.place, h.size]
    | _ =>
      simp only [Draft.call, instr?, Option.elim_some, h.literals, h.sends, h.reads]
      exact h.emit (hsame _)

theorem Call.like_of {c c' : Call} (hp : ∀ d, c.Proper d → c'.Proper d)
    (hi : ∀ d e : Draft, d.Like e → ∃ i j : Instr, d.call c = d.emit i ∧ e.call c' = e.emit j ∧ i.Like j) :
    c.Like c' := by
  constructor
  · exact fun {d e} h h' => hp e ((Like.refl c).proper h h')
  · intro d e h
    obtain ⟨i, j, hc, hc', hij⟩ := hi d e h
    rw [hc, hc']
    exact h.emit hij

namespace Relocator

variable {m : Type → Type} [Monad m] [LawfulMonad m] (r : Relocator m)

theorem pushed_yields (v : Value) : Yields (r.pushed v) fun w =>
    (v.isRef || v.isFrame || v.isBlock) = false → (w.isRef || w.isFrame || w.isBlock) = false := by
  unfold pushed
  split_ifs
  · cases r.ident with
    | none => exact .pure id
    | some f =>
      refine .map (.of_forall fun _ => trivial) fun i _ _ => ?_
      have htag := Value.isSymbol_ofSymbol i
      rw [Value.isRef, Value.isFrame, Value.isBlock, Value.hasTag_of_ne htag (by decide),
        Value.hasTag_of_ne htag (by decide), Value.hasTag_of_ne htag (by decide)]
      rfl
  · exact .pure id

/-- A call in another numbering leads to a draft alike. -/
theorem call_yields (c : Call) : Yields (r.call c) c.Like := by
  have any {α : Type} (x : m α) : Yields x fun _ => True := .of_forall fun _ => trivial
  cases c with
  | emitU32 op n =>
    refine .map (any _) fun n' _ => ?_
    refine Call.like_of (c := .emitU32 op n) (fun _ h => h) fun d e _ => ⟨_, _, rfl, rfl, rfl, ?_⟩
    exact .cons (.field rfl) .nil
  | emitPush v =>
    refine .map (r.pushed_yields v) fun w hw => ?_
    refine Call.like_of (c := .emitPush v) (fun _ h => hw h) fun d e _ => ⟨_, _, rfl, rfl, rfl, ?_⟩
    exact .cons (.field rfl) .nil
  | emitDynLocal op slot outer =>
    refine .bind (any _) fun slot' _ => .bind (any _) fun outer' _ => .pure ?_
    refine Call.like_of (c := .emitDynLocal op slot outer) (fun _ h => h) fun d e _ => ⟨_, _, rfl, rfl, rfl, ?_⟩
    exact .cons (.field rfl) (.cons (.field rfl) .nil)
  | emitGetConst name =>
    refine .map (any _) fun name' _ => ?_
    refine Call.like_of (c := .emitGetConst name) (fun _ h => h) fun d e h => ⟨_, _, rfl, rfl, rfl, ?_⟩
    exact .cons (.field rfl) (.cons (h.reads ▸ .same _) .nil)
  | emitSend name argc flags block =>
    refine .bind (any _) fun name' _ => .bind (any _) fun block' _ => .pure ?_
    refine Call.like_of (c := .emitSend name argc flags block) (fun _ h => h) fun d e h => ⟨_, _, rfl, rfl, rfl, ?_⟩
    exact .cons (.field rfl) (.cons (.same _) (.cons (.same _) (.cons (.field rfl) (.cons (h.sends ▸ .same _) .nil))))
  | emitOptSend name argc block discard =>
    refine .bind (any _) fun name' _ => .bind (any _) fun block' _ => .pure ?_
    refine Call.like_of (c := .emitOptSend name argc block discard) (fun _ h => h) fun d e h =>
      ⟨_, _, rfl, rfl, rfl, ?_⟩
    exact .cons (.field rfl) (.cons (.same _) (.cons (.field rfl) (.cons (h.sends ▸ .same _) .nil)))
  | emitSuper argc block flags =>
    refine .bind (any _) fun block' _ => .pure ?_
    refine Call.like_of (c := .emitSuper argc block flags) (fun _ h => h) fun d e h => ⟨_, _, rfl, rfl, rfl, ?_⟩
    exact .cons (.same _) (.cons (.field rfl) (.cons (.same _) .nil))
  | emitDefMethod name method singleton =>
    refine .bind (any _) fun name' _ => .bind (any _) fun method' _ => .pure ?_
    refine Call.like_of (c := .emitDefMethod name method singleton) (fun _ h => h) fun d e h =>
      ⟨_, _, rfl, rfl, rfl, ?_⟩
    exact .cons (.field rfl) (.cons (.field rfl) .nil)
  | emitDefClass isModule name body =>
    refine .bind (any _) fun name' _ => .bind (any _) fun body' _ => .pure ?_
    refine Call.like_of (c := .emitDefClass isModule name body) (fun _ h => h) fun d e h => ⟨_, _, rfl, rfl, rfl, ?_⟩
    exact .cons (.same _) (.cons (.field rfl) (.cons (.field rfl) .nil))
  | _ => exact .pure (Call.Like.refl _)

/-- A call in another numbering emits the instruction in that numbering. -/
theorem call_emits {c : Call} {d e : Draft} (hc : c.Fits) (hp : c.Proper d) (h : d.Like e) :
    (fun c => (e.call c).instrs) <$> r.call c = (e.instrs ++ ·) <$> (c.instr? d).toList.mapM r.instr := by
  cases c with
  | newLabel | mark => simp [call, Call.instr?, Draft.call, Draft.newLabel, Draft.mark]
  -- the operands of these opcodes are known from their sizes
  | emit op => simp [call, Call.instr?, instr, args, Draft.call, Draft.emit, operands_of_size_one hp]
  | emitU32 op n =>
    obtain ⟨o, ho, -⟩ := operands_of_size_five hp
    simp [call, Call.instr?, instr, args, part, field, Draft.call, Draft.emit, ho, Opcode.kind]
  | emitDynLocal op slot outer =>
    obtain ⟨o, p, hop, -, -⟩ := operands_of_size_nine hp hc
    simp [call, Call.instr?, instr, args, part, field, Draft.call, Draft.emit, hop, Opcode.kind]
  | emitJump op l => simp [call, Call.instr?, instr, args, part, Draft.call, Draft.emit, operands_of_jump hp.1 hp.2.1]
  | emitJumpImm op imm l =>
    simp [call, Call.instr?, instr, args, part, field, number, Draft.call, Draft.emit, operands_of_jumpImm hp.1 hp.2.1]
  | emitPushInt n =>
    have hn : (Value.ofInt n).isSymbol = false := Value.hasTag_of_ne (Value.isFixnum_ofInt n) (by decide)
    simp [call, Call.instr?, instr, args, part, field, pushed, hn, Draft.call, Draft.emit, Opcode.operands]
  | emitPush | emitPushFloat | emitConst | emitGetConst | emitSend | emitSuper | emitDefClass =>
    simp [call, Call.instr?, instr, args, part, field, number, Draft.call, Draft.emit, Opcode.operands,
      h.literals, h.reads, h.sends]
  | emitOptSend _ _ _ b | emitDefMethod _ _ b =>
    cases b <;> simp [call, Call.instr?, instr, args, part, field, number, Draft.call, Draft.emit, Opcode.operands,
      h.sends]

/-! ## Bytes of instructions -/

theorem part_yields (k : Operand) (a : Part) : Yields (r.part k a) a.Like := by
  have any {α : Type} (x : m α) : Yields x fun _ => True := .of_forall fun _ => trivial
  cases a with
  | field f =>
    cases f with
    | u32 n =>
      refine .map (.map (P := fun _ => True) (Q := fun g => ∃ n, g = Field.u32 n) (any _) fun n _ => ⟨n, rfl⟩) ?_
      rintro g ⟨n', rfl⟩
      exact .field rfl
    | u64 w =>
      rw [part, field]
      split_ifs
      · refine .map (.map (P := fun _ => True) (Q := fun g => ∃ w, g = Field.u64 w) (any _) fun v _ => ⟨_, rfl⟩) ?_
        rintro g ⟨w', rfl⟩
        exact .field rfl
      · rw [map_pure]
        exact .pure (.same _)
    | u8 n =>
      show Yields (Part.field <$> (pure (.u8 n) : m Field)) _
      rw [map_pure]
      exact .pure (.same _)
    | u16 n =>
      show Yields (Part.field <$> (pure (.u16 n) : m Field)) _
      rw [map_pure]
      exact .pure (.same _)
  | literal | methodSite | constSite | target => exact .pure (.same _)

theorem args_yields (os : List Operand) (as : List Part) : Yields (r.args os as) (List.Forall₂ Part.Like as) := by
  induction os generalizing as with
  | nil => exact .pure (List.forall₂_same.2 fun a _ => .same a)
  | cons o os ih =>
    cases as with
    | nil => exact .pure .nil
    | cons a as =>
      exact (r.part_yields o a).bind fun a' ha => (ih as).bind fun as' has => .pure (.cons ha has)

/-- The pieces of an operand are renumbered as what was given for it. -/
theorem pieces_part {k : Operand} {a : Part} (h : a.Fits k) (place : Nat → Option Nat) (site : Nat) :
    render <$> (k.pieces (a.bytes place site)).mapM r.piece = (fun a => a.bytes place site) <$> r.part k a := by
  have plain (hk : k.pieces (a.bytes place site) = (a.bytes place site).map .byte) (hp : r.part k a = pure a) :
      render <$> (k.pieces (a.bytes place site)).mapM r.piece = (fun a => a.bytes place site) <$> r.part k a := by
    rw [hk, mapM_bytes, map_pure, render_bytes, hp, map_pure]
  cases a with
  | literal | methodSite | constSite | target =>
    cases h
    exact plain rfl rfl
  | field f =>
    cases f with
    | u8 n =>
      refine plain ?_ (map_pure ..)
      cases k <;> rfl
    | u16 n =>
      refine plain ?_ (map_pure ..)
      cases k <;> rfl
    | u32 n =>
      cases k with
      | value | float | short | flags | byte => cases h
      | count | int | target => exact plain rfl (by simp [part, field, number])
      | ident =>
        simp only [Part.bytes, Part.stored, Field.bytes, Operand.pieces, Bytes.u32At?_le32]
        cases hi : r.ident <;> simp [piece, part, field, number, name, hi, Piece.bytes]
      | fn =>
        by_cases hz : n = 0
        · refine plain ?_ (by simp [hz, part, field, number, function])
          simp [Part.bytes, Part.stored, Field.bytes, Operand.pieces, Bytes.u32At?_le32, hz]
        · simp only [Part.bytes, Part.stored, Field.bytes, Operand.pieces, Bytes.u32At?_le32]
          cases hf : r.fn <;> simp [piece, part, field, number, function, hz, hf, Piece.bytes]
    | u64 w =>
      cases k with
      | count | int | ident | fn | target | short | flags | byte => cases h
      | float => exact plain rfl (by simp [part, field])
      | value =>
        by_cases hs : (Value.mk w).isSymbol = true
        · simp only [Part.bytes, Part.stored, Field.bytes, Operand.pieces, Bytes.u64At?_le64]
          cases hi : r.ident <;> simp [piece, part, field, pushed, hs, hi, Piece.bytes]
        · refine plain ?_ (by simp [part, field, pushed, hs])
          simp [Part.bytes, Part.stored, Field.bytes, Operand.pieces, Bytes.u64At?_le64, hs]

theorem pieces_args {os : List Operand} {as : List Part} (h : List.Forall₂ (fun o a => a.Fits o) os as)
    (place : Nat → Option Nat) (site : Nat) :
    render <$> (operandPieces os (Part.render place site as)).mapM r.piece = Part.render place site <$> r.args os as := by
  induction h generalizing site with
  | nil => simp [operandPieces, args, Part.render]
  | @cons o a os as ha _ ih =>
    have hlen : (a.bytes place site).length = o.width := (Part.length_bytes a).trans ha.width
    rw [operandPieces, Part.render, List.take_left' hlen, List.drop_left' hlen]
    calc render <$> (o.pieces (a.bytes place site) ++
            operandPieces os (Part.render place (site + a.width) as)).mapM r.piece
        = (render <$> (o.pieces (a.bytes place site)).mapM r.piece) >>= fun xs =>
            (render <$> (operandPieces os (Part.render place (site + a.width) as)).mapM r.piece) >>= fun ys =>
              pure (xs ++ ys) := by simp
      _ = r.part o a >>= fun a' => r.args os as >>= fun as' =>
            pure (a'.bytes place site ++ Part.render place (site + a.width) as') := by
          rw [r.pieces_part ha, ih]
          simp
      _ = r.part o a >>= fun a' => r.args os as >>= fun as' => pure (Part.render place site (a' :: as')) :=
          (r.part_yields o a).congr fun a' ha' => by rw [← ha'.width]; rfl
      _ = Part.render place site <$> r.args (o :: os) (a :: as) := by simp [args]

theorem render_instrs (place : Nat → Option Nat) (site : Nat) (i : Instr) (is : List Instr) :
    Part.render place site ((i :: is).flatMap Instr.parts) = i.op.byte :: (Part.render place (site + 1) i.args ++
      Part.render place (site + 1 + Part.widths i.args) (is.flatMap Instr.parts)) := by
  rw [List.flatMap_cons, Instr.parts, List.cons_append, Part.render, Part.render_append]
  rfl

/-- Instructions in another numbering are the pieces of the code in that numbering, and all of it can be read. -/
theorem pieces_instrs {is : List Instr} (h : ∀ i ∈ is, i.Fits) (place : Nat → Option Nat) (site pc : Nat)
    {fuel : Nat} (hfuel : (Part.render place site (is.flatMap Instr.parts)).length ≤ fuel) :
    flawIn fuel pc (Part.render place site (is.flatMap Instr.parts)) = none ∧
    render <$> (piecesIn fuel (Part.render place site (is.flatMap Instr.parts))).mapM r.piece =
      (fun is => Part.render place site (is.flatMap Instr.parts)) <$> is.mapM r.instr := by
  induction is generalizing site pc fuel with
  | nil => cases fuel <;> simp [Part.render, piecesIn, flawIn]
  | cons i is ih =>
    have hi := h i List.mem_cons_self
    have hlen : (Part.render place (site + 1) i.args).length = width i.op.operands := by
      rw [Part.length_render]
      exact Part.widths_of_fits hi
    rw [render_instrs] at hfuel ⊢
    obtain _ | fuel := fuel
    · cases hfuel
    · have hop : opcode? i.op.byte (Part.render place (site + 1) i.args ++
          Part.render place (site + 1 + Part.widths i.args) (is.flatMap Instr.parts)) = some i.op := by
        refine opcode?_byte i.op ?_
        rw [List.length_append, hlen]
        exact Nat.le_add_right _ _
      rw [List.length_cons, List.length_append] at hfuel
      have hle : (Part.render place (site + 1 + Part.widths i.args) (is.flatMap Instr.parts)).length ≤ fuel := by omega
      obtain ⟨hflaw, hrest⟩ := ih (fun j hj => h j (List.mem_cons_of_mem i hj)) _ (pc + i.op.size) hle
      rw [flawIn, piecesIn, hop, Option.elim_some, Option.elim_some, List.take_left' hlen, List.drop_left' hlen]
      refine ⟨hflaw, ?_⟩
      set code := Part.render place (site + 1 + Part.widths i.args) (is.flatMap Instr.parts)
      calc render <$> (.byte i.op.byte :: (operandPieces i.op.operands (Part.render place (site + 1) i.args) ++
              piecesIn fuel code)).mapM r.piece
          = (render <$> (operandPieces i.op.operands (Part.render place (site + 1) i.args)).mapM r.piece) >>= fun xs =>
              (render <$> (piecesIn fuel code).mapM r.piece) >>= fun ys => pure (i.op.byte :: (xs ++ ys)) := by
            simp [piece, Piece.bytes]
        _ = r.args i.op.operands i.args >>= fun as => is.mapM r.instr >>= fun is =>
              pure (i.op.byte :: (Part.render place (site + 1) as ++
                Part.render place (site + 1 + Part.widths i.args) (is.flatMap Instr.parts))) := by
            rw [r.pieces_args hi, hrest]
            simp
        _ = r.args i.op.operands i.args >>= fun as => is.mapM r.instr >>= fun is =>
              pure (Part.render place site ((⟨i.op, as⟩ :: is).flatMap Instr.parts)) :=
            (r.args_yields i.op.operands i.args).congr fun as has => by
              rw [← Part.widths_of_like has]
              simp only [render_instrs]
        _ = (fun is => Part.render place site (is.flatMap Instr.parts)) <$> (i :: is).mapM r.instr := by
            simp [instr]

/-! ## Whole sequences -/

/-- Calls in another numbering are proper if the calls were, and lead to a draft alike. -/
theorem calls_yield (cs : List Call) {d e : Draft} (h : d.Like e) : Yields (cs.mapM r.call) fun cs' =>
    (d.Proper cs → e.Proper cs') ∧ (cs.foldl Draft.call d).Like (cs'.foldl Draft.call e) := by
  induction cs generalizing d e with
  | nil => exact .pure ⟨id, h⟩
  | cons c cs ih =>
    rw [List.mapM_cons]
    refine (r.call_yields c).bind fun c' hc => (ih (hc.step h)).bind fun cs' hcs => .pure ⟨fun hp => ?_, hcs.2⟩
    exact ⟨hc.proper h hp.1, hcs.1 hp.2⟩

/-- Calls in another numbering emit the instructions in that numbering. -/
theorem calls_emit {cs : List Call} {d e : Draft} (hfits : ∀ c ∈ cs, c.Fits) (hp : d.Proper cs) (h : d.Like e) :
    (fun cs => (cs.foldl Draft.call e).instrs) <$> cs.mapM r.call =
      (e.instrs ++ ·) <$> (d.emitted cs).mapM r.instr := by
  induction cs generalizing d e with
  | nil => simp [Draft.emitted]
  | cons c cs ih =>
    calc (fun cs => (cs.foldl Draft.call e).instrs) <$> (c :: cs).mapM r.call
        = r.call c >>= fun c' => (fun cs => (cs.foldl Draft.call (e.call c')).instrs) <$> cs.mapM r.call := by simp
      _ = r.call c >>= fun c' => ((e.call c').instrs ++ ·) <$> ((d.call c).emitted cs).mapM r.instr :=
          (r.call_yields c).congr fun c' hc =>
            ih (fun c hmem => hfits c (List.mem_cons_of_mem _ hmem)) hp.2 (hc.step h)
      _ = ((fun c => (e.call c).instrs) <$> r.call c) >>= fun is =>
            (is ++ ·) <$> ((d.call c).emitted cs).mapM r.instr := by simp
      _ = (e.instrs ++ ·) <$> (d.emitted (c :: cs)).mapM r.instr := by
          rw [r.call_emits (hfits c List.mem_cons_self) hp.1 h]
          simp [Draft.emitted]

end Relocator

/-- Proper calls after which every label is marked make a sequence of what was drafted. -/
theorem assemble_code (name : Ident) (kind : SequenceKind) {cs : List Call} (hc : ({} : Draft).Proper cs)
    (hmarked : ∀ l < (draft cs).labels, ((draft cs).place l).isSome = true) : ∃ seq, assemble name kind cs = .ok seq ∧
      seq.code = (Part.render (draft cs).place 0 (draft cs).parts).toArray := by
  obtain ⟨b, hrun, h⟩ := (Assembles.new name kind).run hc
  obtain ⟨seq, hseq⟩ := h.build_eq.2 hmarked
  refine ⟨seq, by rw [assemble, hrun]; exact hseq, ?_⟩
  rw [Builder.build] at hseq
  split_ifs at hseq
  cases hseq
  exact Array.toList_inj.1 h.code

namespace Call

/-- A function that is not none, if an operand is one. -/
def noted (k : Operand) (n : UInt32) : List FnId := if k = .fn ∧ n ≠ 0 then [⟨n⟩] else []

/-- The functions among the operands that an emitter is given. -/
def functions : Call → List FnId
  | .emitU32 op n => noted (op.kind 0) n
  | .emitDynLocal op slot outer => noted (op.kind 0) slot ++ noted (op.kind 1) outer
  | .emitSend _ _ _ g | .emitOptSend _ _ g _ | .emitSuper _ g _ | .emitDefMethod _ g _ | .emitDefClass _ _ g =>
    noted .fn g.id
  | _ => []

end Call

/-- A computation gives `a` and notes functions, the last of them first. -/
def Notes {α : Type} (x : StateM (List FnId) α) (a : α) (gs : List FnId) : Prop :=
  ∀ seen, x.run seen = (a, gs.reverse ++ seen)

namespace Notes

variable {α β : Type} {x : StateM (List FnId) α} {a : α} {b : β} {gs hs : List FnId}

theorem pure (a : α) : Notes (Pure.pure a) a [] := fun _ => rfl

theorem map (f : α → β) (hx : Notes x a gs) : Notes (f <$> x) (f a) gs := by
  intro seen
  rw [StateT.run_map, hx seen]
  rfl

theorem bind {k : α → StateM (List FnId) β} (hx : Notes x a gs) (hk : Notes (k a) b hs) :
    Notes (x >>= k) b (gs ++ hs) := by
  intro seen
  rw [StateT.run_bind, hx seen, List.reverse_append, List.append_assoc]
  exact hk _

end Notes

namespace Relocator

/-- Notes the functions, and changes nothing. -/
def noting : Relocator (StateM (List FnId)) := ⟨none, some fun f => do modify (f :: ·); return f⟩

theorem notes_function (g : FnId) : Notes (noting.function g) g (Call.noted .fn g.id) := by
  rw [function, Call.noted]
  by_cases hz : g.id = 0
  · rw [if_pos hz, if_neg fun h => h.2 hz]
    exact .pure g
  · rw [if_neg hz, if_pos ⟨rfl, hz⟩]
    exact fun _ => rfl

theorem notes_number (k : Operand) (n : UInt32) : Notes (noting.number k n) n (Call.noted k n) := by
  cases k with
  | fn => exact (notes_function ⟨n⟩).map FnId.id
  | _ => exact .pure n

/-- A call is left as it is, and its functions are noted. -/
theorem notes_call (c : Call) : Notes (noting.call c) c c.functions := by
  have hpure {α : Type} {x : StateM (List FnId) α} {a : α} {gs : List FnId} (h : Notes x a (gs ++ [])) :
      Notes x a gs := by
    rwa [List.append_nil] at h
  cases c with
  | emitU32 op n => exact (notes_number _ n).map _
  | emitPush v =>
    have hv : noting.pushed v = pure v := by rw [pushed, noting, Option.elim_none, ite_self]
    rw [call, hv]
    exact (Notes.pure v).map _
  | emitDynLocal op slot outer => exact (notes_number _ slot).bind (hpure ((notes_number _ outer).bind (.pure _)))
  | emitGetConst name => exact (Notes.pure name).map _
  | emitSend name argc flags block => exact (Notes.pure name).bind (hpure ((notes_function block).bind (.pure _)))
  | emitOptSend name argc block discard => exact (Notes.pure name).bind (hpure ((notes_function block).bind (.pure _)))
  | emitSuper argc block flags => exact hpure ((notes_function block).bind (.pure _))
  | emitDefMethod name method singleton => exact (Notes.pure name).bind (hpure ((notes_function method).bind (.pure _)))
  | emitDefClass isModule name body => exact (Notes.pure name).bind (hpure ((notes_function body).bind (.pure _)))
  | _ => exact .pure _

theorem notes_calls (cs : List Call) : Notes (cs.mapM noting.call) cs (cs.flatMap Call.functions) := by
  induction cs with
  | nil => exact .pure []
  | cons c cs ih =>
    rw [List.mapM_cons, List.flatMap_cons, ← List.append_nil (cs.flatMap Call.functions)]
    exact (notes_call c).bind (ih.bind (.pure _))

end Relocator

/-- Assembled code in another numbering is what is assembled from the calls in that numbering. Each name and function
that an emitter was given is renumbered once, in the order of the calls, with what effects that has. The functions that
the code refers to are those that emitters were given, none aside, and finding them leaves the code as it is. -/
theorem relocate_assembled (name : Ident) (kind : SequenceKind) {cs : List Call} (hc : ({} : Draft).Proper cs)
    (hfits : ∀ c ∈ cs, c.Fits) {seq : Sequence} (hseq : assemble name kind cs = .ok seq) :
    (∀ (m : Type → Type) [Monad m] [LawfulMonad m] (r : Relocator m),
      (fun out => (Except.ok out.1, out.2)) <$> r.apply seq.code =
        (fun cs => ((assemble name kind cs).map Sequence.code, none)) <$> cs.mapM r.call) ∧
    functionOperands seq.code = (cs.flatMap Call.functions, none) ∧
    Notes (Relocator.noting.apply seq.code) (seq.code, none) (cs.flatMap Call.functions) := by
  obtain ⟨b, hrun, h⟩ := (Assembles.new name kind).run hc
  have hmarked : ∀ l < (draft cs).labels, ((draft cs).place l).isSome = true := by
    rw [assemble, hrun] at hseq
    exact h.build_eq.1 ⟨seq, hseq⟩
  have hcode : seq.code.toList = Part.render (draft cs).place 0 (draft cs).parts := by
    obtain ⟨seq', hseq', hcode⟩ := assemble_code name kind hc hmarked
    rw [hseq] at hseq'
    cases hseq'
    rw [hcode]
  have hinstrs : (draft cs).instrs = ({} : Draft).emitted cs := Draft.instrs_foldl {} cs
  have hrenumbered (m : Type → Type) [Monad m] [LawfulMonad m] (r : Relocator m) :
      (fun out => (Except.ok out.1, out.2)) <$> r.apply seq.code =
        (fun cs => ((assemble name kind cs).map Sequence.code, none)) <$> cs.mapM r.call := by
    have hlike := Draft.Like.refl {}
    obtain ⟨hflaw, hpieces⟩ := r.pieces_instrs (Draft.fits_emitted hfits hc) (draft cs).place 0 0 le_rfl
    rw [← hinstrs] at hflaw hpieces
    calc (fun out => (Except.ok out.1, out.2)) <$> r.apply seq.code
        = (fun bs => (Except.ok bs.toArray, none)) <$> (render <$> (pieces (Part.render (draft cs).place 0
            (draft cs).parts)).mapM r.piece) := by
          rw [Relocator.apply_eq, hcode, Functor.map_map, Functor.map_map]
          have hnone : flaw? (Part.render (draft cs).place 0 (draft cs).parts) = none := hflaw
          rw [hnone]
      _ = (fun is => (Except.ok (Part.render (draft cs).place 0 (is.flatMap Instr.parts)).toArray, none)) <$>
            ((fun cs => (draft cs).instrs) <$> cs.mapM r.call) := by
          have hcalls := r.calls_emit hfits hc hlike
          rw [← hinstrs] at hcalls
          simp only [List.nil_append, id_map'] at hcalls
          rw [show (fun cs => (draft cs).instrs) <$> cs.mapM r.call = (draft cs).instrs.mapM r.instr from hcalls,
            pieces, Draft.parts, hpieces, Functor.map_map]
      _ = (fun cs => ((assemble name kind cs).map Sequence.code, none)) <$> cs.mapM r.call := by
          rw [Functor.map_map]
          refine (r.calls_yield cs hlike).map_congr fun cs' hcs' => ?_
          obtain ⟨hproper, hlike'⟩ := hcs'
          obtain ⟨seq', hseq', hcode'⟩ := assemble_code name kind (hproper hc) fun l hl => by
            rw [show (draft cs').place = (draft cs).place from hlike'.place]
            exact hmarked l (hlike'.labels ▸ hl)
          rw [hseq', Except.map, hcode', show (draft cs').place = (draft cs).place from hlike'.place]
          rfl
  have hnoting : Notes (Relocator.noting.apply seq.code) (seq.code, none) (cs.flatMap Call.functions) := by
    intro seen
    have h := congrArg (fun x => StateT.run x seen) (hrenumbered (StateM (List FnId)) Relocator.noting)
    have hcalls := (Relocator.notes_calls cs).map fun cs =>
      ((assemble name kind cs).map Sequence.code, (none : Option WalkError))
    rw [hcalls seen, StateT.run_map, hseq] at h
    obtain ⟨hout, hseen⟩ := Prod.mk.inj h
    obtain ⟨hcode, hnone⟩ := Prod.mk.inj hout
    exact Prod.ext (Prod.ext (Except.ok.inj hcode) hnone) hseen
  refine ⟨hrenumbered, ?_, hnoting⟩
  have hfound := congrArg (fun out => (out.2.reverse, out.1.2)) (hnoting [])
  dsimp only at hfound
  rwa [List.append_nil, List.reverse_reverse] at hfound

/-- A constant, a symbol, a number, sends without a block and with one, a method, and a closure. -/
def namesAndFunctions : List Call := [.emitGetConst ⟨7⟩, .emitPush (.ofSymbol ⟨3⟩), .emitPushInt 42,
  .emitSend ⟨8⟩ 0 0 ⟨0⟩, .emitOptSend ⟨9⟩ 1 ⟨5⟩ false, .emitDefMethod ⟨4⟩ ⟨6⟩ false, .emitU32 .createProc 2, .emit .ret]

/-- Names go up by 1000, and functions become ten times what they were. -/
def upByThousand : Relocator Id := ⟨some fun i => ⟨i.id + 1000⟩, some fun g => ⟨10 * g.id⟩⟩

theorem relocate_assembled_namesAndFunctions : ({} : Draft).Proper namesAndFunctions ∧
    (∀ c ∈ namesAndFunctions, c.Fits) ∧ ∃ seq, assemble ⟨1⟩ .method namesAndFunctions = .ok seq ∧
      (Except.ok (Id.run (upByThousand.apply seq.code)).1, (Id.run (upByThousand.apply seq.code)).2) =
        ((assemble ⟨1⟩ .method [.emitGetConst ⟨1007⟩, .emitPush (.ofSymbol ⟨1003⟩), .emitPushInt 42,
          .emitSend ⟨1008⟩ 0 0 ⟨0⟩, .emitOptSend ⟨1009⟩ 1 ⟨50⟩ false, .emitDefMethod ⟨1004⟩ ⟨60⟩ false,
          .emitU32 .createProc 20, .emit .ret]).map Sequence.code, none) ∧
      functionOperands seq.code = ([⟨5⟩, ⟨6⟩, ⟨2⟩], none) := by
  have hproper : ({} : Draft).Proper namesAndFunctions :=
    ⟨trivial, rfl, ⟨by decide, by decide⟩, trivial, trivial, trivial, rfl, rfl, trivial⟩
  have hfits : ∀ c ∈ namesAndFunctions, c.Fits := by
    simp [namesAndFunctions, Call.Fits]
  obtain ⟨seq, hseq, -⟩ := assemble_code ⟨1⟩ .method hproper fun l hl => absurd hl (Nat.not_lt_zero l)
  obtain ⟨hrenumbered, hfunctions, -⟩ := relocate_assembled ⟨1⟩ .method hproper hfits hseq
  exact ⟨hproper, hfits, seq, hseq, hrenumbered Id upByThousand, hfunctions⟩

end RubyMachine.Code
