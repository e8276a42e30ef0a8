import RubyMachine.Proofs.Code.Likeness
import RubyMachine.Proofs.Value.Kinds

/-! Code instruction by instruction, before and after its names and functions get other numbers: the opcodes stay
where they are, and each operand is renumbered for itself. -/

namespace RubyMachine.Code

/-- An operand before and after names are renumbered by `I` and functions by `F`. There is no function 0. -/
inductive Operand.Renumbered (I : UInt32 → Ident → Prop) (F : UInt32 → FnId → Prop) :
    Operand → List UInt8 → List UInt8 → Prop where
  | ident {n : UInt32} {i : Ident} : I n i → Renumbered I F .ident (Bytes.le32 n) (Bytes.le32 i.id)
  | fn {n : UInt32} {f : FnId} : n ≠ 0 → F n f → Renumbered I F .fn (Bytes.le32 n) (Bytes.le32 f.id)
  | noFn : Renumbered I F .fn (Bytes.le32 0) (Bytes.le32 0)
  | symbol {v : Value} {i : Ident} : v.isSymbol = true → I v.toSymbol.id i →
    Renumbered I F .value (Bytes.le64 v.bits) (Bytes.le64 (Value.ofSymbol i).bits)
  | value {v : Value} : v.isSymbol = false → Renumbered I F .value (Bytes.le64 v.bits) (Bytes.le64 v.bits)
  | other {k : Operand} {bs : List UInt8} : k ≠ .ident → k ≠ .fn → k ≠ .value → bs.length = k.width →
    Renumbered I F k bs bs

inductive OperandsRenumbered (I : UInt32 → Ident → Prop) (F : UInt32 → FnId → Prop) :
    List Operand → List UInt8 → List UInt8 → Prop where
  | nil : OperandsRenumbered I F [] [] []
  | cons {o : Operand} {os : List Operand} {bs bs' cs cs' : List UInt8} : o.Renumbered I F bs bs' →
    OperandsRenumbered I F os cs cs' → OperandsRenumbered I F (o :: os) (bs ++ cs) (bs' ++ cs')

/-- Code before and after: instruction for instruction the same opcode with renumbered operands, to the end. -/
inductive Renumbered (I : UInt32 → Ident → Prop) (F : UInt32 → FnId → Prop) : List UInt8 → List UInt8 → Prop where
  | nil : Renumbered I F [] []
  | cons {b : UInt8} {op : Opcode} {bs bs' cs cs' : List UInt8} : Opcode.ofByte? b = some op →
    OperandsRenumbered I F op.operands bs bs' → Renumbered I F cs cs' → Renumbered I F (b :: (bs ++ cs)) (b :: (bs' ++ cs'))

/-- How a piece of code is renumbered. -/
inductive Piece.Renumbered (I : UInt32 → Ident → Prop) (F : UInt32 → FnId → Prop) : Piece → Piece → Prop where
  | byte (b : UInt8) : Renumbered I F (.byte b) (.byte b)
  | ident {i j : Ident} : I i.id j → Renumbered I F (.ident i) (.ident j)
  | symbol {v : Value} {i : Ident} : v.isSymbol = true → I v.toSymbol.id i →
    Renumbered I F (.symbol v) (.symbol (.ofSymbol i))
  | fn {f g : FnId} : f.id ≠ 0 → F f.id g → Renumbered I F (.fn f) (.fn g)

variable {I : UInt32 → Ident → Prop} {F : UInt32 → FnId → Prop}

theorem Piece.Renumbered.alike {p q : Piece} (h : p.Renumbered I F q) (hF : ∀ n f, n ≠ 0 → F n f → f.id ≠ 0) :
    p.Alike (fun i j => I i.id j) (fun f g => F f.id g) q := by
  cases h with
  | byte b => exact .byte b
  | ident hi => exact .ident hi
  | symbol hv hi => exact .symbol hv (Value.isSymbol_ofSymbol _) (by rwa [Value.toSymbol_ofSymbol])
  | fn hf hg => exact .fn hf (hF _ _ hf hg) hg

theorem eq_of_renumbered_bytes {bs : List UInt8} {ps : List Piece}
    (h : List.Forall₂ (Piece.Renumbered I F) (bs.map .byte) ps) : ps = bs.map .byte := by
  induction bs generalizing ps with
  | nil => exact List.forall₂_nil_left_iff.1 h
  | cons b bs ih =>
    obtain ⟨p, qs, hp, hqs, rfl⟩ := List.forall₂_cons_left_iff.1 h
    cases hp
    rw [ih hqs, List.map_cons]

theorem operand_renumbered {k : Operand} {bs : List UInt8} {ps : List Piece} (hb : bs.length = k.width)
    (h : List.Forall₂ (Piece.Renumbered I F) (k.pieces bs) ps) : k.Renumbered I F bs (render ps) := by
  have single {p : Piece} (h : List.Forall₂ (Piece.Renumbered I F) [p] ps) : ∃ q, p.Renumbered I F q ∧ ps = [q] := by
    obtain ⟨q, qs, hq, hqs, rfl⟩ := List.forall₂_cons_left_iff.1 h
    exact ⟨q, hq, congrArg _ (List.forall₂_nil_left_iff.1 hqs)⟩
  have same (he : k.pieces bs = bs.map .byte) : render ps = bs := by
    rw [he] at h
    rw [eq_of_renumbered_bytes h, render_bytes]
  cases k with
  | ident =>
    obtain ⟨n, hn, rfl⟩ := Bytes.u32At?_eq hb
    rw [Operand.pieces, hn] at h
    obtain ⟨q, hq, rfl⟩ := single h
    cases hq with
    | ident hi => simpa [Piece.bytes] using Operand.Renumbered.ident hi
  | fn =>
    obtain ⟨n, hn, rfl⟩ := Bytes.u32At?_eq hb
    by_cases hz : n = 0
    · rw [same (by rw [Operand.pieces, hn]; exact if_pos hz), hz]
      exact .noFn
    · rw [Operand.pieces, hn] at h
      dsimp only at h
      rw [if_neg hz] at h
      obtain ⟨q, hq, rfl⟩ := single h
      cases hq with
      | fn hf hg => simpa [Piece.bytes] using Operand.Renumbered.fn hf hg
  | value =>
    obtain ⟨w, hw, rfl⟩ := Bytes.u64At?_eq hb
    by_cases hs : (Value.mk w).isSymbol = true
    · rw [Operand.pieces, hw] at h
      dsimp only at h
      rw [if_pos hs] at h
      obtain ⟨q, hq, rfl⟩ := single h
      cases hq with
      | symbol hv hi => simpa [Piece.bytes] using Operand.Renumbered.symbol hv hi
    · rw [same (by rw [Operand.pieces, hw]; exact if_neg hs)]
      exact .value (Bool.eq_false_of_not_eq_true hs)
  | _ =>
    rw [same rfl]
    exact .other (fun h => by cases h) (fun h => by cases h) (fun h => by cases h) hb

theorem operands_renumbered {os : List Operand} {bs : List UInt8} {ps : List Piece} (hb : bs.length = width os)
    (h : List.Forall₂ (Piece.Renumbered I F) (operandPieces os bs) ps) : OperandsRenumbered I F os bs (render ps) := by
  induction os generalizing bs ps with
  | nil =>
    obtain rfl := List.forall₂_nil_left_iff.1 h
    obtain rfl := List.length_eq_zero_iff.1 hb
    exact .nil
  | cons o os ih =>
    have hw : width (o :: os) = o.width + width os := by simp [width]
    obtain ⟨ps, qs, hps, hqs, rfl⟩ := exists_append_of_forall₂ h
    rw [render_append, ← List.take_append_drop o.width bs]
    exact .cons (operand_renumbered (by simp; omega) hps) (ih (by simp; omega) hqs)

/-- Code that can be read to its end is renumbered instruction by instruction when its pieces are. -/
theorem renumbered_of_pieces {bs : List UInt8} {ps : List Piece} (hflaw : flaw? bs = none)
    (h : List.Forall₂ (Piece.Renumbered I F) (pieces bs) ps) : Renumbered I F bs (render ps) := by
  suffices hs : ∀ fuel pc bs ps, bs.length ≤ fuel → flawIn fuel pc bs = none →
      List.Forall₂ (Piece.Renumbered I F) (piecesIn fuel bs) ps → Renumbered I F bs (render ps) from
    hs _ _ _ _ le_rfl hflaw h
  intro fuel
  induction fuel with
  | zero =>
    intro pc bs ps hl _ h
    obtain rfl := List.length_eq_zero_iff.1 (Nat.le_zero.1 hl)
    obtain rfl := List.forall₂_nil_left_iff.1 h
    exact .nil
  | succ fuel ih =>
    intro pc bs ps hl hf h
    cases bs with
    | nil =>
      obtain rfl := List.forall₂_nil_left_iff.1 h
      exact .nil
    | cons b bs =>
      rw [piecesIn] at h
      rw [flawIn] at hf
      cases ho : opcode? b bs with
      | none =>
        rw [ho] at hf
        cases hf
      | some op =>
        rw [ho] at h hf
        obtain ⟨p, rest, hb, hrest, rfl⟩ := List.forall₂_cons_left_iff.1 h
        obtain ⟨qs, rs, hqs, hrs, rfl⟩ := exists_append_of_forall₂ hrest
        cases hb
        rw [render_cons, render_append, Piece.bytes, List.singleton_append, ← List.take_append_drop (width op.operands) bs]
        refine .cons (ofByte?_of_opcode? ho) (operands_renumbered (by simpa using width_le ho) hqs) (ih _ _ _ ?_ hf hrs)
        rw [List.length_cons] at hl
        rw [List.length_drop]
        omega

end RubyMachine.Code
