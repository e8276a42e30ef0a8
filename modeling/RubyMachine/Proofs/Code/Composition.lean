import RubyMachine.Proofs.Code.Decoding
import RubyMachine.Proofs.Code.Likeness
import RubyMachine.Proofs.Value.Kinds

/-! Renumbering code twice is renumbering it once, by one numbering after the other (`apply_andThen`), and where the
instructions are does not depend on the numbering (`apply_functorial`). -/

namespace RubyMachine.Code

/-- The offsets of the instructions, up to the first that cannot be read. -/
def boundaries (code : Bytes) : List Nat := startsIn code.size 0 code.toList

/-- Where symbols are pushed, the word pushed is the symbol and nothing else. -/
def PushesSymbols (code : Bytes) : Prop :=
  ∀ pc ∈ boundaries code, opcodeAt? code pc = some .pushVal → ∀ w, code.u64At? (pc + 1) = some w →
    (Value.mk w).isSymbol = true → Value.ofSymbol (Value.mk w).toSymbol = ⟨w⟩

namespace Relocator

/-! ## Numberings -/

/-- One renumbering and then another. A part that one of them leaves out is that of the other. -/
def andThen (r s : Relocator Id) : Relocator Id where
  ident := r.ident.elim s.ident fun f => some (s.ident.elim f fun g i => g (Id.run (f i)))
  fn := r.fn.elim s.fn fun f => some (s.fn.elim f fun g i => g (Id.run (f i)))

/-- No function becomes none. -/
def KeepsFunctions (r : Relocator Id) : Prop := ∀ f, r.fn = some f → ∀ g : FnId, g.id ≠ 0 → (Id.run (f g)).id ≠ 0

/-- Names and functions keep their numbers. -/
structure Still (r : Relocator Id) : Prop where
  ident : ∀ f, r.ident = some f → f = id
  fn : ∀ f, r.fn = some f → f = id

/-! ## Pieces -/

section

variable (r s : Relocator Id)

/-- Without effects, the pieces are renumbered one by one. -/
theorem apply_run (code : Bytes) : Id.run (r.apply code) =
    ((render ((pieces code.toList).map fun p => Id.run (r.piece p))).toArray, flaw? code.toList) := by
  rw [apply_eq, Id.run_map, List.idRun_mapM]

variable {r}

theorem piece_alike (hr : r.KeepsFunctions) {p : Piece} (hp : p.Proper) :
    p.Alike (fun _ _ => True) (fun _ _ => True) (Id.run (r.piece p)) := by
  cases p with
  | byte b => exact .byte b
  | ident i =>
    rw [piece]
    cases r.ident with
    | none => exact .ident trivial
    | some f => exact .ident trivial
  | symbol v =>
    rw [piece]
    cases r.ident with
    | none => exact .symbol hp hp trivial
    | some f => exact .symbol hp (Value.isSymbol_ofSymbol _) trivial
  | fn g =>
    rw [piece]
    cases hf : r.fn with
    | none => exact .fn hp hp trivial
    | some f => exact .fn hp (hr f hf g hp) trivial

theorem piece_andThen (r s : Relocator Id) (p : Piece) :
    Id.run (s.piece (Id.run (r.piece p))) = Id.run ((r.andThen s).piece p) := by
  cases p with
  | byte b => rfl
  | ident i =>
    rw [piece, piece, andThen]
    cases r.ident <;> cases hs : s.ident <;> simp [piece, hs]
  | symbol v =>
    rw [piece, piece, andThen]
    cases r.ident <;> cases hs : s.ident <;> simp [piece, hs, Value.toSymbol_ofSymbol]
  | fn g =>
    rw [piece, piece, andThen]
    cases r.fn <;> cases hs : s.fn <;> simp [piece, hs]

theorem piece_still (hr : r.Still) {p : Piece} (hp : ∀ v, p = .symbol v → Value.ofSymbol v.toSymbol = v) :
    Id.run (r.piece p) = p := by
  cases p with
  | byte b => rfl
  | ident i =>
    rw [piece]
    cases hi : r.ident with
    | none => rfl
    | some f => rw [hr.ident f hi]; rfl
  | symbol v =>
    rw [piece]
    cases hi : r.ident with
    | none => rfl
    | some f =>
      rw [hr.ident f hi]
      exact congrArg Piece.symbol (hp v rfl)
  | fn g =>
    rw [piece]
    cases hf : r.fn with
    | none => rfl
    | some f => rw [hr.fn f hf]; rfl

end

/-! ## Code -/

section

variable {r : Relocator Id}

/-- The pieces of renumbered code are the renumbered pieces, so another renumbering finds them again. -/
theorem pieces_apply (hr : r.KeepsFunctions) (code : Bytes) :
    pieces (Id.run (r.apply code)).1.toList = (pieces code.toList).map fun p => Id.run (r.piece p) := by
  have halike : List.Forall₂ (Piece.Alike (fun _ _ => True) (fun _ _ => True)) (pieces code.toList)
      ((pieces code.toList).map fun p => Id.run (r.piece p)) := by
    rw [List.forall₂_map_right_iff, List.forall₂_same]
    exact fun p hp => piece_alike hr (proper_pieces p hp)
  rw [apply_run]
  exact (pieces_render halike).1

/-- Renumbered bytes are as many, and bytes that are no operand stay, so opcodes are where they were. -/
theorem shape_render (r : Relocator Id) (fuel pc : Nat) (bs : List UInt8) :
    let bs' := render ((piecesIn fuel bs).map fun p => Id.run (r.piece p))
    bs'.length = bs.length ∧ startsIn fuel pc bs' = startsIn fuel pc bs ∧ flawIn fuel pc bs' = flawIn fuel pc bs := by
  have hlen (ps : List Piece) : (render (ps.map fun p => Id.run (r.piece p))).length = (render ps).length := by
    induction ps with
    | nil => rfl
    | cons p ps ih =>
      have hp : (Id.run (r.piece p)).bytes.length = p.bytes.length := by
        cases p <;> rw [piece] <;> first | rfl | (split <;> rfl)
      rw [List.map_cons, render_cons, render_cons, List.length_append, List.length_append, hp, ih]
  have hbytes (bs : List UInt8) : render ((bs.map Piece.byte).map fun p => Id.run (r.piece p)) = bs := by
    rw [List.map_map]
    exact render_bytes bs
  induction fuel generalizing pc bs with
  | zero =>
    dsimp only
    rw [piecesIn, hbytes]
    exact ⟨rfl, rfl, rfl⟩
  | succ fuel ih =>
    cases bs with
    | nil => exact ⟨rfl, rfl, rfl⟩
    | cons b bs =>
      dsimp only
      rw [piecesIn]
      cases ho : opcode? b bs with
      | none =>
        rw [Option.elim_none, hbytes]
        exact ⟨rfl, rfl, rfl⟩
      | some op =>
        have hw := width_le ho
        obtain ⟨hl, hstarts, hflaw⟩ := ih (pc + op.size) (bs.drop (width op.operands))
        rw [Option.elim_some, List.map_cons, List.map_append, render_cons, render_append]
        have hops : (render ((operandPieces op.operands (bs.take (width op.operands))).map
            fun p => Id.run (r.piece p))).length = width op.operands := by
          rw [hlen, render_operandPieces (by simpa using hw), List.length_take, Nat.min_eq_left hw]
        have hrest := hl.trans (List.length_drop ..)
        set os := render ((operandPieces op.operands (bs.take (width op.operands))).map fun p => Id.run (r.piece p))
        set rest := render ((piecesIn fuel (bs.drop (width op.operands))).map fun p => Id.run (r.piece p))
        have htotal : (os ++ rest).length = bs.length := by
          rw [List.length_append, hops, hrest]
          omega
        have hhead : Piece.bytes (Id.run (r.piece (.byte b))) ++ (os ++ rest) = b :: (os ++ rest) := rfl
        have ho' : opcode? b (os ++ rest) = some op := by rw [opcode?_congr htotal, ho]
        rw [hhead, startsIn, startsIn, flawIn, flawIn, ho, ho', List.length_cons, List.length_cons, htotal]
        simp only [Option.elim_some]
        rw [List.drop_left' hops, hstarts, hflaw]
        exact ⟨trivial, rfl, rfl⟩

/-- Renumbered code has its instructions at the same offsets, and cannot be read from the same one on. -/
theorem apply_shape (r : Relocator Id) (code : Bytes) : boundaries (Id.run (r.apply code)).1 = boundaries code ∧
    flaw? (Id.run (r.apply code)).1.toList = flaw? code.toList := by
  obtain ⟨hlen, hstarts, hflaw⟩ := shape_render r code.toList.length 0 code.toList
  rw [apply_run, pieces]
  dsimp only
  rw [boundaries, flaw?, List.size_toArray, hlen]
  exact ⟨hstarts, hflaw⟩

end

end Relocator

/-! ## Symbols -/

theorem not_symbol_bytes {bs : List UInt8} {v : Value} : Piece.symbol v ∉ bs.map Piece.byte := by
  intro h
  obtain ⟨b, -, hb⟩ := List.mem_map.1 h
  cases hb

/-- Only immediate values are symbols. -/
theorem symbol_mem_operand {k : Operand} {bs : List UInt8} {v : Value} (h : .symbol v ∈ k.pieces bs) :
    k = .value ∧ Bytes.u64At? bs.toArray 0 = some v.bits := by
  unfold Operand.pieces at h
  split at h
  · split at h
    · simp at h
    · exact absurd h not_symbol_bytes
  · split at h
    · split_ifs at h
      · exact absurd h not_symbol_bytes
      · simp at h
    · exact absurd h not_symbol_bytes
  · split at h
    · rename_i w hw
      split_ifs at h
      · obtain rfl := Piece.symbol.inj (List.mem_singleton.1 h)
        exact ⟨rfl, hw⟩
      · exact absurd h not_symbol_bytes
    · exact absurd h not_symbol_bytes
  · exact absurd h not_symbol_bytes

/-- PUSH_VAL alone has an immediate value among its operands, as the only one. -/
theorem symbol_mem_operands {op : Opcode} {bs : List UInt8} {v : Value}
    (h : .symbol v ∈ operandPieces op.operands bs) : op = .pushVal ∧ Bytes.u64At? (bs.take 8).toArray 0 = some v.bits := by
  have among {os : List Operand} {bs : List UInt8} (h : .symbol v ∈ operandPieces os bs) :
      ∃ o ∈ os, o = .value := by
    induction os generalizing bs with
    | nil => cases h
    | cons o os ih =>
      rcases List.mem_append.1 h with h | h
      · exact ⟨o, List.mem_cons_self, (symbol_mem_operand h).1⟩
      · obtain ⟨o', ho', hk⟩ := ih h
        exact ⟨o', List.mem_cons_of_mem o ho', hk⟩
  have hany : op.operands.any (fun o => o == .value) = true := by
    obtain ⟨o, ho, hk⟩ := among h
    exact List.any_eq_true.2 ⟨o, ho, beq_iff_eq.2 hk⟩
  obtain rfl : op = .pushVal := by
    cases op <;> first | rfl | cases hany
  rcases List.mem_append.1 h with h | h
  · exact ⟨rfl, (symbol_mem_operand h).2⟩
  · cases h

/-- A symbol among the pieces is pushed by an instruction. -/
theorem exists_of_symbol {code : Bytes} {fuel : Nat} {pre bs : List UInt8} {v : Value} (hc : code.toList = pre ++ bs)
    (h : .symbol v ∈ piecesIn fuel bs) : ∃ pc ∈ startsIn fuel pre.length bs, opcodeAt? code pc = some .pushVal ∧
      code.u64At? (pc + 1) = some v.bits := by
  induction fuel generalizing pre bs with
  | zero => exact absurd h not_symbol_bytes
  | succ fuel ih =>
    cases bs with
    | nil => cases h
    | cons b bs =>
      rw [piecesIn] at h
      rw [startsIn]
      cases ho : opcode? b bs with
      | none =>
        rw [ho] at h
        exact absurd h not_symbol_bytes
      | some op =>
        rw [ho, Option.elim_some, List.mem_cons, List.mem_append] at h
        have hw := width_le ho
        rcases h with h | h | h
        · cases h
        · obtain ⟨rfl, hword⟩ := symbol_mem_operands h
          refine ⟨pre.length, List.mem_cons_self, by rw [opcodeAt?_eq hc, ofByte?_of_opcode? ho], ?_⟩
          have hc' : code.toList = (pre ++ [b]) ++ bs.take 8 ++ bs.drop 8 := by simp [hc]
          have hat := Bytes.u64At?_middle hc' (List.length_take_of_le hw)
          rw [List.length_append, List.length_singleton] at hat
          rw [hat, ← hword]
          rw [List.take_take]
          rfl
        · have hpc : pre.length + op.size = (pre ++ b :: bs.take (width op.operands)).length := by
            simp [size_eq, hw]
            omega
          have hc' : code.toList = (pre ++ b :: bs.take (width op.operands)) ++ bs.drop (width op.operands) := by
            simp [hc]
          obtain ⟨pc, hmem, hat⟩ := ih hc' h
          rw [← hpc] at hmem
          exact ⟨pc, List.mem_cons_of_mem _ hmem, hat⟩

/-! ## Renumbering arbitrary code -/

namespace Relocator

/-- Renumbering renumbered code is renumbering it by one numbering after the other. -/
theorem apply_andThen {r : Relocator Id} (hr : r.KeepsFunctions) (s : Relocator Id) (code : Bytes) :
    s.apply (Id.run (r.apply code)).1 = (r.andThen s).apply code := by
  apply Id.ext
  rw [apply_run, pieces_apply hr, List.map_map, apply_run (r.andThen s)]
  have hpiece : (fun p => Id.run (s.piece p)) ∘ (fun p => Id.run (r.piece p)) =
      fun p => Id.run ((r.andThen s).piece p) := funext (piece_andThen r s)
  rw [hpiece, (apply_shape r code).2]

/-- Code that pushes symbols as they are is left as it is by a numbering that changes nothing. -/
theorem apply_still {r : Relocator Id} (hr : r.Still) {code : Bytes} (hc : PushesSymbols code) :
    r.apply code = (code, flaw? code.toList) := by
  have hpiece : ∀ p ∈ pieces code.toList, Id.run (r.piece p) = p := by
    intro p hp
    refine piece_still hr fun v hv => ?_
    subst hv
    obtain ⟨pc, hpc, hop, hword⟩ := exists_of_symbol (List.nil_append code.toList).symm hp
    exact hc pc hpc hop v.bits hword (proper_pieces _ hp)
  apply Id.ext
  rw [apply_run, List.map_congr_left hpiece, List.map_id', render_pieces]
  rfl

/-- Renumbering arbitrary code is functorial, as long as the first numbering makes no function none and the symbols
pushed are symbols and nothing else. Whatever the numbering and its effects, the walk visits the same offsets and ends
for the same reason; renumbered code has the same instructions at the same offsets. -/
theorem apply_functorial (code : Bytes) :
    (∀ r s : Relocator Id, r.KeepsFunctions → s.apply (Id.run (r.apply code)).1 = (r.andThen s).apply code) ∧
    (∀ r : Relocator Id, r.Still → PushesSymbols code → r.apply code = (code, flaw? code.toList)) ∧
    (∀ (m : Type → Type) [Monad m] [LawfulMonad m] (r : Relocator m),
      r.apply code = (·, flaw? code.toList) <$> (boundaries code).foldlM r.instruction code) ∧
    (∀ r : Relocator Id, boundaries (Id.run (r.apply code)).1 = boundaries code ∧
      flaw? (Id.run (r.apply code)).1.toList = flaw? code.toList) ∧
    (flaw? code.toList = none → Starts code 0 (boundaries code)) := by
  have hc : code.toList = [] ++ code.toList := rfl
  refine ⟨fun r s hr => apply_andThen hr s code, fun r hr => apply_still hr, fun m _ _ r => ?_,
    fun r => apply_shape r code, fun hf => ?_⟩
  · exact walk_startsIn r hc rfl le_rfl
  · exact starts_startsIn hc le_rfl hf

end Relocator

/-- GET_CONST, a symbol, and CREATE_PROC. -/
def constantSymbolProc : Bytes :=
  (Opcode.getConst.byte :: Bytes.le32 7 ++ Bytes.le32 0 ++ Opcode.pushVal.byte :: Bytes.le64 (Value.ofSymbol ⟨3⟩).bits ++
    Opcode.createProc.byte :: Bytes.le32 5).toArray

theorem starts_constantSymbolProc : Starts constantSymbolProc 0 [0, 9, 18] :=
  .step (opcodeAt?_byte .getConst (by decide)) (by decide)
    (.step (opcodeAt?_byte .pushVal (by decide)) (by decide)
      (.step (opcodeAt?_byte .createProc (by decide)) (by decide) .done))

theorem boundaries_constantSymbolProc : boundaries constantSymbolProc = [0, 9, 18] := by
  have hflaw : flaw? constantSymbolProc.toList = none := flaw?_eq_none_iff.2 ⟨_, starts_constantSymbolProc⟩
  exact (starts_startsIn (List.nil_append _).symm le_rfl hflaw).unique starts_constantSymbolProc

theorem pushesSymbols_constantSymbolProc : PushesSymbols constantSymbolProc := by
  intro pc hpc hop w hw hs
  rw [boundaries_constantSymbolProc] at hpc
  have hword : constantSymbolProc.u64At? 10 = some (Value.ofSymbol ⟨3⟩).bits := by decide
  have hfirst : opcodeAt? constantSymbolProc 0 ≠ some .pushVal := by
    rw [opcodeAt?_byte .getConst (by decide)]
    decide
  have hlast : opcodeAt? constantSymbolProc 18 ≠ some .pushVal := by
    rw [opcodeAt?_byte .createProc (by decide)]
    decide
  rcases List.mem_cons.1 hpc with rfl | hpc
  · exact absurd hop hfirst
  · rcases List.mem_cons.1 hpc with rfl | hpc
    · cases hword.symm.trans hw
      rw [Value.toSymbol_ofSymbol]
    · obtain rfl := List.mem_singleton.1 hpc
      exact absurd hop hlast

/-- Names go up by one, and every function becomes the ninth. -/
def upToNinth : Relocator Id := ⟨some fun i => ⟨i.id + 1⟩, some fun _ => ⟨9⟩⟩

/-- Names are doubled, and functions keep their numbers. -/
def doubled : Relocator Id := ⟨some fun i => ⟨2 * i.id⟩, none⟩

theorem apply_functorial_constantSymbolProc : upToNinth.KeepsFunctions ∧
    doubled.apply (Id.run (upToNinth.apply constantSymbolProc)).1 = (upToNinth.andThen doubled).apply constantSymbolProc ∧
    Relocator.Still ⟨some id, some id⟩ ∧ PushesSymbols constantSymbolProc ∧
    (⟨some id, some id⟩ : Relocator Id).apply constantSymbolProc = (constantSymbolProc, none) ∧
    Starts constantSymbolProc 0 [0, 9, 18] := by
  have hkeeps : upToNinth.KeepsFunctions := by
    intro f hf g hg
    cases hf
    exact (by decide : (9 : UInt32) ≠ 0)
  have hstill : Relocator.Still ⟨some id, some id⟩ :=
    ⟨fun f hf => (Option.some.inj hf).symm, fun f hf => (Option.some.inj hf).symm⟩
  have hflaw : flaw? constantSymbolProc.toList = none := by decide +kernel
  obtain ⟨hcomp, hsame, -, -, hstarts⟩ := Relocator.apply_functorial constantSymbolProc
  refine ⟨hkeeps, hcomp _ doubled hkeeps, hstill, pushesSymbols_constantSymbolProc, ?_, ?_⟩
  · rw [hsame _ hstill pushesSymbols_constantSymbolProc, hflaw]
  · rw [← boundaries_constantSymbolProc]
    exact hstarts hflaw

end RubyMachine.Code
