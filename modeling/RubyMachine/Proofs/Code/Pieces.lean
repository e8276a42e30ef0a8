import RubyMachine.Code.Relocate
import RubyMachine.Proofs.Bytes.Words
import RubyMachine.Proofs.Value.Layout

/-! Code as a list of pieces: the names and functions among its operands, and single bytes for the rest.
Renumbering changes the pieces one by one and nothing else (`apply_eq`). -/

namespace RubyMachine.Code

/-- A part of code: a byte, or an operand that is a name or a function. -/
inductive Piece where
  | byte (b : UInt8)
  | ident (i : Ident)
  /-- A symbol among the immediate values, as a word. -/
  | symbol (v : Value)
  | fn (f : FnId)
  deriving DecidableEq

def Piece.bytes : Piece → List UInt8
  | byte b => [b]
  | ident i => Bytes.le32 i.id
  | symbol v => Bytes.le64 v.bits
  | fn f => Bytes.le32 f.id

def render (ps : List Piece) : List UInt8 := ps.flatMap Piece.bytes

/-- The pieces of one operand, given its bytes. -/
def Operand.pieces (k : Operand) (bs : List UInt8) : List Piece :=
  match k with
  | .ident =>
    match Bytes.u32At? bs.toArray 0 with
    | some n => [.ident ⟨n⟩]
    | none => bs.map .byte
  | .fn =>
    match Bytes.u32At? bs.toArray 0 with
    | some n => if n = 0 then bs.map .byte else [.fn ⟨n⟩]
    | none => bs.map .byte
  | .value =>
    match Bytes.u64At? bs.toArray 0 with
    | some w => if (Value.mk w).isSymbol then [.symbol ⟨w⟩] else bs.map .byte
    | none => bs.map .byte
  | _ => bs.map .byte

def operandPieces : List Operand → List UInt8 → List Piece
  | [], _ => []
  | o :: os, bs => o.pieces (bs.take o.width) ++ operandPieces os (bs.drop o.width)

def width (os : List Operand) : Nat := (os.map Operand.width).sum

/-- The opcode at a byte, if its operands follow. -/
def opcode? (b : UInt8) (bs : List UInt8) : Option Opcode :=
  (Opcode.ofByte? b).filter fun op => width op.operands ≤ bs.length

/-- The pieces of `fuel` instructions at most. An instruction that cannot be read and all that follows are
bytes. -/
def piecesIn : Nat → List UInt8 → List Piece
  | 0, bs => bs.map .byte
  | _ + 1, [] => []
  | fuel + 1, b :: bs =>
    (opcode? b bs).elim ((b :: bs).map .byte) fun op =>
      .byte b :: (operandPieces op.operands (bs.take (width op.operands)) ++
        piecesIn fuel (bs.drop (width op.operands)))

/-- An instruction takes a byte at least. -/
def pieces (bs : List UInt8) : List Piece := piecesIn bs.length bs

/-- Why there is no instruction at a byte. -/
def flawAt (pc : Nat) (b : UInt8) : WalkError :=
  (Opcode.ofByte? b).elim (.unknownOpcode pc b) (.truncated pc)

def flawIn : Nat → Nat → List UInt8 → Option WalkError
  | 0, _, _ => none
  | _ + 1, _, [] => none
  | fuel + 1, pc, b :: bs =>
    (opcode? b bs).elim (some (flawAt pc b)) fun op =>
      flawIn fuel (pc + op.size) (bs.drop (width op.operands))

/-- The first instruction that cannot be read. -/
def flaw? (bs : List UInt8) : Option WalkError := flawIn bs.length 0 bs

theorem Opcode.mem_all (op : Opcode) : op ∈ Opcode.all := by
  cases op <;> exact List.elem_iff.1 rfl

/-- Computing the opcode at a byte takes the kernel long. Where the opcode is known, this is used. -/
theorem Opcode.ofByte?_byte (op : Opcode) : Opcode.ofByte? op.byte = some op := by
  have h : ∀ op ∈ Opcode.all, Opcode.ofByte? op.byte = some op := by decide +kernel
  exact h op op.mem_all

/-- The length in the table is that of the operands and a byte. -/
theorem size_eq (op : Opcode) : op.size = 1 + width op.operands := by
  cases op <;> rfl

theorem Opcode.size_pos (op : Opcode) : 0 < op.size := by
  rw [size_eq]
  omega

theorem opcode?_byte (op : Opcode) {bs : List UInt8} (h : width op.operands ≤ bs.length) :
    opcode? op.byte bs = some op := by
  rw [opcode?, op.ofByte?_byte, Option.filter_some, if_pos (decide_eq_true h)]

/-- The pieces of one instruction. -/
theorem pieces_instruction (op : Opcode) {bs : List UInt8} (h : bs.length = width op.operands) :
    pieces (op.byte :: bs) = .byte op.byte :: operandPieces op.operands bs := by
  have hrest (fuel : Nat) : piecesIn fuel [] = [] := by cases fuel <;> rfl
  rw [pieces, List.length_cons, piecesIn, opcode?_byte op h.ge, Option.elim_some, ← h, List.take_length,
    List.drop_length, hrest, List.append_nil]

theorem ofByte?_of_opcode? {b : UInt8} {bs : List UInt8} {op : Opcode} (h : opcode? b bs = some op) :
    Opcode.ofByte? b = some op := by
  rw [opcode?] at h
  exact (Option.filter_eq_some_iff.1 h).1

theorem width_le {b : UInt8} {bs : List UInt8} {op : Opcode} (h : opcode? b bs = some op) :
    width op.operands ≤ bs.length := by
  rw [opcode?] at h
  exact of_decide_eq_true (Option.filter_eq_some_iff.1 h).2

@[simp] theorem render_nil : render [] = [] := rfl

@[simp] theorem render_cons (p : Piece) (ps : List Piece) : render (p :: ps) = p.bytes ++ render ps := rfl

@[simp] theorem render_append (ps qs : List Piece) : render (ps ++ qs) = render ps ++ render qs := List.flatMap_append

@[simp] theorem render_bytes (bs : List UInt8) : render (bs.map .byte) = bs := by
  induction bs with
  | nil => rfl
  | cons b bs ih => simp [ih, Piece.bytes]

/-! ## Nothing is lost -/

theorem render_operand {k : Operand} {bs : List UInt8} (h : bs.length = k.width) : render (k.pieces bs) = bs := by
  unfold Operand.pieces
  split
  · obtain ⟨n, hn, hbs⟩ := Bytes.u32At?_eq h
    simp [hn, Piece.bytes, hbs]
  · obtain ⟨n, hn, hbs⟩ := Bytes.u32At?_eq h
    rw [hn]
    dsimp only
    split_ifs <;> simp [Piece.bytes, hbs]
  · obtain ⟨w, hw, hbs⟩ := Bytes.u64At?_eq h
    rw [hw]
    dsimp only
    split_ifs <;> simp [Piece.bytes, hbs]
  · exact render_bytes bs

theorem render_operandPieces {os : List Operand} {bs : List UInt8} (h : bs.length = width os) :
    render (operandPieces os bs) = bs := by
  induction os generalizing bs with
  | nil => exact (List.length_eq_zero_iff.1 h).symm
  | cons o os ih =>
    have hw : width (o :: os) = o.width + width os := by simp [width]
    rw [operandPieces, render_append, render_operand (by simp; omega), ih (by simp; omega), List.take_append_drop]

theorem render_piecesIn (fuel : Nat) (bs : List UInt8) : render (piecesIn fuel bs) = bs := by
  induction fuel generalizing bs with
  | zero => exact render_bytes bs
  | succ fuel ih =>
    cases bs with
    | nil => rfl
    | cons b bs =>
      rw [piecesIn]
      cases h : opcode? b bs with
      | none => exact render_bytes _
      | some op =>
        simp only [Option.elim_some, render_cons, render_append, ih]
        rw [render_operandPieces (by simpa using width_le h), List.take_append_drop]
        rfl

theorem render_pieces (bs : List UInt8) : render (pieces bs) = bs := render_piecesIn _ bs

/-! ## Renumbering goes by pieces -/

namespace Relocator

variable {m : Type → Type} [Monad m]

/-- How one piece is renumbered. -/
def piece (r : Relocator m) : Piece → m Piece
  | .byte b => pure (.byte b)
  | .ident i =>
    match r.ident with
    | some f => Piece.ident <$> f i
    | none => pure (.ident i)
  | .symbol v =>
    match r.ident with
    | some f => (fun i => Piece.symbol (.ofSymbol i)) <$> f v.toSymbol
    | none => pure (.symbol v)
  | .fn g =>
    match r.fn with
    | some f => Piece.fn <$> f g
    | none => pure (.fn g)

variable (r : Relocator m)

/-! ### One instruction -/

/-- Renumbers one operand at `pos`. -/
def operand (code : Bytes) (o : Operand) (pos : Nat) : m Bytes :=
  match o with
  | .ident => r.identAt code pos
  | .fn => r.fnAt code pos
  | .value => r.symbolAt code pos
  | _ => pure code

def operands (code : Bytes) : List Operand → Nat → m Bytes
  | [], _ => pure code
  | o :: os, pos => r.operand code o pos >>= fun code => operands code os (pos + o.width)

/-- What is renumbered by place is what is renumbered operand by operand. -/
theorem rewrite_eq [LawfulMonad m] (op : Opcode) (code : Bytes) (pc : Nat) :
    r.rewrite op code pc = r.operands code op.operands (pc + 1) := by
  cases op <;> simp [rewrite, Opcode.layout, Opcode.operands, operands, operand, Operand.width, Nat.add_assoc]

theorem walk_succ (n fuel pc : Nat) (code : Bytes) : r.walk n (fuel + 1) code pc =
    if pc < n then (Opcode.ofByte? (code.getD pc 0)).elim
      (pure (code, some (.unknownOpcode pc (code.getD pc 0)))) fun op =>
        if n < pc + op.size then pure (code, some (.truncated pc op))
        else r.rewrite op code pc >>= fun code => r.walk n fuel code (pc + op.size)
    else pure (code, none) := by
  by_cases h : pc < n
  · rw [if_pos h]
    refine (if_pos h).trans ?_
    cases Opcode.ofByte? (code.getD pc 0) <;> rfl
  · exact (if_neg h).trans (if_neg h).symm

theorem walk_done {n fuel pc : Nat} {code : Bytes} (h : n ≤ pc) : r.walk n fuel code pc = pure (code, none) := by
  cases fuel with
  | zero => rfl
  | succ fuel => rw [walk_succ, if_neg (Nat.not_lt.2 h)]

theorem walk_stuck {n fuel pc : Nat} {code : Bytes} {b : UInt8} {bs : List UInt8} (h : pc < n)
    (hb : code.getD pc 0 = b) (hn : n = pc + 1 + bs.length) (ho : opcode? b bs = none) :
    r.walk n (fuel + 1) code pc = pure (code, some (flawAt pc b)) := by
  rw [walk_succ, if_pos h, hb, flawAt]
  cases hop : Opcode.ofByte? b with
  | none => rw [Option.elim_none, Option.elim_none]
  | some op =>
    have hlt : n < pc + op.size := by
      rw [opcode?, hop, Option.filter_some] at ho
      simp at ho
      rw [size_eq]
      omega
    rw [Option.elim_some, Option.elim_some, if_pos hlt]

theorem walk_step {n fuel pc : Nat} {code : Bytes} {b : UInt8} {bs : List UInt8} {op : Opcode} (h : pc < n)
    (hb : code.getD pc 0 = b) (hn : n = pc + 1 + bs.length) (ho : opcode? b bs = some op) :
    r.walk n (fuel + 1) code pc = r.rewrite op code pc >>= fun code => r.walk n fuel code (pc + op.size) := by
  rw [walk_succ, if_pos h, hb, ofByte?_of_opcode? ho, Option.elim_some, if_neg]
  have := width_le ho
  rw [size_eq]
  omega

section

variable [LawfulMonad m]

theorem mapM_bytes (bs : List UInt8) : (bs.map Piece.byte).mapM r.piece = pure (bs.map .byte) := by
  induction bs with
  | nil => rfl
  | cons b bs ih => simp [ih, piece]

theorem operand_eq {code : Bytes} {pre bs post : List UInt8} {k : Operand}
    (hc : code.toList = pre ++ bs ++ post) (hb : bs.length = k.width) :
    r.operand code k pre.length = (fun ps => (pre ++ render ps ++ post).toArray) <$> (k.pieces bs).mapM r.piece := by
  have hcode : (pre ++ bs ++ post).toArray = code := by rw [← hc]
  have hbytes : (fun ps => (pre ++ render ps ++ post).toArray) <$> (bs.map Piece.byte).mapM r.piece = pure code := by
    rw [mapM_bytes, map_pure, render_bytes, hcode]
  cases k with
  | ident =>
    obtain ⟨n, hn, hbs⟩ := Bytes.u32At?_eq hb
    rw [operand, identAt, Operand.pieces, Bytes.u32At?_middle hc hb.ge, hn]
    cases hi : r.ident with
    | none => simp [piece, hi, Piece.bytes, hbs, ← hcode]
    | some f => simp [piece, hi, Piece.bytes, Bytes.overwrite_middle hc ((Bytes.length_le32 _).trans hb.symm)]
  | fn =>
    obtain ⟨n, hn, hbs⟩ := Bytes.u32At?_eq hb
    rw [operand, fnAt, Operand.pieces, Bytes.u32At?_middle hc hb.ge, hn]
    dsimp only
    by_cases hz : n = 0
    · rw [if_pos hz, hbytes]
      cases r.fn <;> simp [hz]
    · cases hf : r.fn with
      | none => simp [hz, piece, hf, Piece.bytes, hbs, ← hcode]
      | some f => simp [hz, piece, hf, Piece.bytes, Bytes.overwrite_middle hc ((Bytes.length_le32 _).trans hb.symm)]
  | value =>
    obtain ⟨w, hw, hbs⟩ := Bytes.u64At?_eq hb
    rw [operand, symbolAt, Operand.pieces, Bytes.u64At?_middle hc hb, hw]
    dsimp only
    by_cases hs : (Value.mk w).isSymbol = true
    · cases hi : r.ident with
      | none => simp [hs, piece, hi, Piece.bytes, hbs, ← hcode]
      | some f => simp [hs, piece, hi, Piece.bytes, Bytes.overwrite_middle hc ((Bytes.length_le64 _).trans hb.symm)]
    · rw [if_neg hs, hbytes]
      cases r.ident <;> simp [hs]
  | _ => exact hbytes.symm

/-! A renumbered piece takes as many bytes, so what follows the renumbering finds the next one in its place. -/

theorem piece_bind_congr {β : Type} {p : Piece} {f g : Piece → m β}
    (h : ∀ q : Piece, q.bytes.length = p.bytes.length → f q = g q) : r.piece p >>= f = r.piece p >>= g := by
  cases p with
  | byte b => simpa [piece] using h _ rfl
  | ident i =>
    cases hi : r.ident with
    | none => simpa [piece, hi] using h _ rfl
    | some t => simpa [piece, hi] using bind_congr fun j => h (.ident j) (by simp only [Piece.bytes, Bytes.length_le32])
  | symbol v =>
    cases hi : r.ident with
    | none => simpa [piece, hi] using h _ rfl
    | some t =>
      have hlen (j : Ident) : (Piece.symbol (.ofSymbol j)).bytes.length = (Piece.symbol v).bytes.length := by
        simp only [Piece.bytes, Bytes.length_le64]
      simpa [piece, hi] using bind_congr fun j => h _ (hlen j)
  | fn a =>
    cases hf : r.fn with
    | none => simpa [piece, hf] using h _ rfl
    | some t => simpa [piece, hf] using bind_congr fun b => h (.fn b) (by simp only [Piece.bytes, Bytes.length_le32])

theorem mapM_bind_congr {β : Type} {ps : List Piece} {f g : List Piece → m β}
    (h : ∀ qs, (render qs).length = (render ps).length → f qs = g qs) :
    ps.mapM r.piece >>= f = ps.mapM r.piece >>= g := by
  induction ps generalizing f g with
  | nil => simpa using h [] rfl
  | cons p ps ih =>
    simp only [List.mapM_cons, bind_assoc, pure_bind]
    refine piece_bind_congr r fun q hq => ih fun qs hqs => h (q :: qs) ?_
    simp [hq, hqs]

theorem operands_eq {code : Bytes} {os : List Operand} {pre bs post : List UInt8}
    (hc : code.toList = pre ++ bs ++ post) (hb : bs.length = width os) :
    r.operands code os pre.length =
      (fun ps => (pre ++ render ps ++ post).toArray) <$> (operandPieces os bs).mapM r.piece := by
  induction os generalizing code pre bs with
  | nil =>
    obtain rfl : bs = [] := List.length_eq_zero_iff.1 hb
    obtain rfl : code = (pre ++ post).toArray := Array.toList_inj.1 (by rw [hc, List.append_nil])
    simp [operands, operandPieces]
  | cons o os ih =>
    have hw : width (o :: os) = o.width + width os := by simp [width]
    have htake : (bs.take o.width).length = o.width := by simp; omega
    have hc' : code.toList = pre ++ bs.take o.width ++ (bs.drop o.width ++ post) := by
      rw [hc, List.append_assoc, List.append_assoc, ← List.append_assoc (List.take _ _), List.take_append_drop]
    rw [operands, operand_eq r hc' htake, operandPieces, List.mapM_append]
    simp only [bind_map_left, map_bind, map_pure]
    refine mapM_bind_congr r fun qs hqs => ?_
    rw [render_operand htake, htake] at hqs
    have hc'' : ((pre ++ render qs ++ (bs.drop o.width ++ post)).toArray).toList =
        (pre ++ render qs) ++ bs.drop o.width ++ post := by simp
    have h := ih hc'' (by simp; omega)
    rw [List.length_append, hqs] at h
    rw [h, ← bind_pure_comp]
    simp

theorem walk_eq {code : Bytes} {n fuel : Nat} {pre bs : List UInt8} (hc : code.toList = pre ++ bs)
    (hn : code.size = n) (hfuel : bs.length ≤ fuel) : r.walk n fuel code pre.length =
      (fun ps => ((pre ++ render ps).toArray, flawIn fuel pre.length bs)) <$> (piecesIn fuel bs).mapM r.piece := by
  induction fuel generalizing code pre bs with
  | zero =>
    obtain rfl : code = (pre ++ bs).toArray := by rw [← hc]
    obtain rfl : bs = [] := List.length_eq_zero_iff.1 (Nat.le_zero.1 hfuel)
    rw [walk_done r (by simp [← hn]), piecesIn, List.map_nil, List.mapM_nil, map_pure, render_nil, flawIn]
  | succ fuel ih =>
    obtain rfl : code = (pre ++ bs).toArray := by rw [← hc]
    cases bs with
    | nil => rw [walk_done r (by simp [← hn]), piecesIn, List.mapM_nil, map_pure, render_nil, flawIn]
    | cons b bs =>
      have hn' : n = pre.length + 1 + bs.length := by rw [← hn]; simp; omega
      have hb : (pre ++ b :: bs).toArray.getD pre.length 0 = b := by simp
      cases ho : opcode? b bs with
      | none =>
        rw [walk_stuck r (by omega) hb hn' ho, piecesIn, flawIn, ho]
        simp only [Option.elim_none]
        rw [mapM_bytes, map_pure, render_bytes]
      | some op =>
        have hw := width_le ho
        have hc' : (pre ++ b :: bs).toArray.toList =
            (pre ++ [b]) ++ bs.take (width op.operands) ++ bs.drop (width op.operands) := by simp
        have ho' := operands_eq r hc' (by simpa using hw : _ = width op.operands)
        rw [List.length_append, List.length_singleton] at ho'
        rw [walk_step r (by omega) hb hn' ho, rewrite_eq, piecesIn, flawIn, ho, ho']
        simp only [Option.elim_some, List.mapM_cons, List.mapM_append, piece, pure_bind, bind_map_left, bind_assoc,
          map_bind, map_pure]
        refine mapM_bind_congr r fun qs hqs => ?_
        rw [render_operandPieces (by simpa using hw), List.length_take, Nat.min_eq_left hw] at hqs
        have hpc : pre.length + op.size = (pre ++ [b] ++ render qs).length := by
          rw [size_eq]
          simp [hqs]
          omega
        have hn'' : (pre ++ [b] ++ render qs ++ bs.drop (width op.operands)).toArray.size = n := by
          simp [hqs, hn']
          omega
        rw [hpc, ih rfl hn'' (by simp at hfuel ⊢; omega), ← bind_pure_comp]
        simp [Piece.bytes]

theorem apply_eq (code : Bytes) : r.apply code =
    (fun ps => ((render ps).toArray, flaw? code.toList)) <$> (pieces code.toList).mapM r.piece :=
  have hc : code.toList = [] ++ code.toList := rfl
  walk_eq r hc rfl (by simp)

end

end Relocator

/-! ## Pieces that code has -/

/-- Functions are functions, and symbols are symbols. -/
def Piece.Proper : Piece → Prop
  | symbol v => v.isSymbol = true
  | fn f => f.id ≠ 0
  | _ => True

theorem proper_bytes {bs : List UInt8} : ∀ p ∈ bs.map Piece.byte, p.Proper := by
  intro p hp
  obtain ⟨b, -, rfl⟩ := List.mem_map.1 hp
  trivial

theorem proper_operand {k : Operand} {bs : List UInt8} : ∀ p ∈ k.pieces bs, p.Proper := by
  unfold Operand.pieces
  split
  · split
    · simp [Piece.Proper]
    · exact proper_bytes
  · split
    · split_ifs with hz
      · exact proper_bytes
      · simpa [Piece.Proper] using hz
    · exact proper_bytes
  · split
    · split_ifs with hs
      · simpa [Piece.Proper] using hs
      · exact proper_bytes
    · exact proper_bytes
  · exact proper_bytes

theorem proper_operandPieces {os : List Operand} {bs : List UInt8} : ∀ p ∈ operandPieces os bs, p.Proper := by
  induction os generalizing bs with
  | nil => exact fun p hp => absurd hp List.not_mem_nil
  | cons o os ih =>
    intro p hp
    rcases List.mem_append.1 hp with hp | hp
    · exact proper_operand p hp
    · exact ih p hp

theorem proper_pieces {bs : List UInt8} : ∀ p ∈ pieces bs, p.Proper := by
  suffices h : ∀ fuel bs, ∀ p ∈ piecesIn fuel bs, p.Proper from h bs.length bs
  intro fuel
  induction fuel with
  | zero => exact fun bs => proper_bytes
  | succ fuel ih =>
    intro bs
    cases bs with
    | nil => exact fun p hp => absurd hp List.not_mem_nil
    | cons b bs =>
      rw [piecesIn]
      cases opcode? b bs with
      | none => exact proper_bytes
      | some op =>
        intro p hp
        rcases List.mem_cons.1 hp with rfl | hp
        · trivial
        · rcases List.mem_append.1 hp with hp | hp
          · exact proper_operandPieces p hp
          · exact ih _ p hp

end RubyMachine.Code
