import RubyMachine.Proofs.Value.Blocks

/-! Words are unambiguous. Every word is of exactly one kind, the constructors give words of their own kind from which
their readers get back what was put in, and two constructors never give the same word (`boxing_exact`). -/

namespace RubyMachine

/-- What a word is. -/
inductive Kind where
  | float | fixnum | ref | symbol | frame | block | special
  deriving DecidableEq

namespace Value

def is (v : Value) : Kind → Bool
  | .float => v.isFloat
  | .fixnum => v.isFixnum
  | .ref => v.isRef
  | .symbol => v.isSymbol
  | .frame => v.isFrame
  | .block => v.isBlock
  | .special => v.hasTag specialTag

end Value

/-- The tag of a kind; floats are what has none. -/
def Kind.tag? : Kind → Option UInt64
  | float => none
  | fixnum => some Value.fixnumTag
  | ref => some Value.refTag
  | symbol => some Value.symbolTag
  | frame => some Value.frameTag
  | block => some Value.blockTag
  | special => some Value.specialTag

namespace Value

variable {v : Value} {k l : Kind} {t : UInt64}

theorem is_eq_hasTag (h : k.tag? = some t) (v : Value) : v.is k = v.hasTag t := by
  cases k <;> cases h <;> rfl

theorem mem_tags_of_tag? (h : k.tag? = some t) : t ∈ tags := by
  cases k <;> cases h <;> decide

theorem exists_kind_of_mem_tags (h : t ∈ tags) : ∃ k : Kind, k.tag? = some t := by
  simp only [tags, List.mem_cons, List.not_mem_nil, or_false] at h
  rcases h with rfl | rfl | rfl | rfl | rfl | rfl
  · exact ⟨.ref, rfl⟩
  · exact ⟨.fixnum, rfl⟩
  · exact ⟨.special, rfl⟩
  · exact ⟨.symbol, rfl⟩
  · exact ⟨.frame, rfl⟩
  · exact ⟨.block, rfl⟩

/-! ## Every word has a kind -/

theorem toNat_and_tagMask (v : Value) : (v.bits &&& tagMask).toNat = 2 ^ 48 * (v.bits.toNat / 2 ^ 48 % 8) := by
  have hlow : v.bits.toNat % 2 ^ 48 < 2 ^ 48 := Nat.mod_lt _ (by decide)
  have hsplit : v.bits.toNat = 2 ^ 48 * (v.bits.toNat / 2 ^ 48) + v.bits.toNat % 2 ^ 48 := by omega
  rw [UInt64.toNat_and, show tagMask.toNat = 2 ^ 48 * (2 ^ 3 - 1) by decide, hsplit, two_pow_mul_add_and hlow,
    Nat.and_two_pow_sub_one_eq_mod, ← hsplit]

/-- Three bits that are neither all zeros nor all ones are a tag. -/
theorem mem_tags_of_mask (h0 : v.bits &&& tagMask ≠ 0) (h7 : v.bits &&& tagMask ≠ tagMask) : v.bits &&& tagMask ∈ tags := by
  have hn := toNat_and_tagMask v
  have hlt : v.bits.toNat / 2 ^ 48 % 8 < 8 := Nat.mod_lt _ (by decide)
  generalize v.bits &&& tagMask = t at *
  generalize v.bits.toNat / 2 ^ 48 % 8 = n at hn hlt
  have ht (u : UInt64) (hu : 2 ^ 48 * n = u.toNat) : t = u := UInt64.toNat.inj (hn.trans hu)
  interval_cases n
  · exact absurd (ht 0 rfl) h0
  · exact ht refTag rfl ▸ by decide
  · exact ht fixnumTag rfl ▸ by decide
  · exact ht specialTag rfl ▸ by decide
  · exact ht symbolTag rfl ▸ by decide
  · exact ht frameTag rfl ▸ by decide
  · exact ht blockTag rfl ▸ by decide
  · exact absurd (ht tagMask rfl) h7

theorem exists_tag_of_isFloat (h : v.isFloat = Bool.false) : ∃ t ∈ tags, v.hasTag t = Bool.true := by
  simp only [isFloat, Bool.or_eq_false_iff, bne_eq_false_iff_eq, beq_eq_false_iff_ne] at h
  obtain ⟨⟨⟨⟨-, -⟩, hquiet⟩, h0⟩, h7⟩ := h
  have htag : v.tag = v.bits &&& quietNaN ||| v.bits &&& tagMask := by
    apply UInt64.toNat.inj
    rw [tag, UInt64.toNat_and, UInt64.toNat_or, UInt64.toNat_or, UInt64.toNat_and, UInt64.toNat_and,
      Nat.and_or_distrib_left]
  exact ⟨v.bits &&& tagMask, mem_tags_of_mask h0 h7, by rw [hasTag, beq_iff_eq, htag, hquiet]⟩

theorem eq_float_of_tag? (h : k.tag? = none) : k = .float := by
  cases k <;> first | rfl | cases h

theorem eq_of_tag? (h : k.tag?.map (quietNaN ||| ·) = l.tag?.map (quietNaN ||| ·)) : k = l := by
  cases k <;> cases l <;> first | rfl | exact absurd h (by decide)

theorem not_isFloat_of_is (h : k.tag? = some t) (hk : v.is k = Bool.true) : v.isFloat = Bool.false :=
  isFloat_of_hasTag ((is_eq_hasTag h v).symm.trans hk) (mem_tags_of_tag? h)

theorem eq_of_is (hk : v.is k = Bool.true) (hl : v.is l = Bool.true) : k = l := by
  cases ht : k.tag? with
  | none =>
    cases hu : l.tag? with
    | none => rw [eq_float_of_tag? ht, eq_float_of_tag? hu]
    | some u =>
      rw [eq_float_of_tag? ht] at hk
      cases hk.symm.trans (not_isFloat_of_is hu hl)
  | some t =>
    cases hu : l.tag? with
    | none =>
      rw [eq_float_of_tag? hu] at hl
      cases hl.symm.trans (not_isFloat_of_is ht hk)
    | some u =>
      rw [is_eq_hasTag ht] at hk
      rw [is_eq_hasTag hu] at hl
      refine eq_of_tag? ?_
      rw [ht, hu, Option.map_some, Option.map_some, ← tag_of_hasTag hk, ← tag_of_hasTag hl]

/-- Every word is of one kind, and of no other. -/
theorem existsUnique_kind (v : Value) : ∃! k, v.is k = Bool.true := by
  have hkind : ∃ k, v.is k = Bool.true := by
    cases hf : v.isFloat with
    | true => exact ⟨.float, hf⟩
    | false =>
      obtain ⟨t, hmem, ht⟩ := exists_tag_of_isFloat hf
      obtain ⟨k, hk⟩ := exists_kind_of_mem_tags hmem
      exact ⟨k, (is_eq_hasTag hk v).trans ht⟩
  obtain ⟨k, hk⟩ := hkind
  exact ⟨k, hk, fun l hl => eq_of_is hl hk⟩

/-! ## Floats -/

/-- A word whose exponent is all ones is a NaN, unless its fraction is zero. -/
theorem isNaN_of_masks {bits : UInt64} (hexp : bits &&& 0x7FF0000000000000 = 0x7FF0000000000000)
    (hlow : bits &&& 0x000FFFFFFFFFFFFF ≠ 0) : (Decimal.Binary64.ofBits bits).isNaN = Bool.true := by
  have hrest : bits.toNat % 2 ^ 52 < 2 ^ 52 := Nat.mod_lt _ (by decide)
  have hsplit : bits.toNat = 2 ^ 52 * (bits.toNat / 2 ^ 52) + bits.toNat % 2 ^ 52 := by omega
  have hmask : 2 ^ 52 * (bits.toNat / 2 ^ 52 &&& 0x7FF) = 2 ^ 52 * 0x7FF := by
    rw [← two_pow_mul_add_and hrest, ← hsplit]
    exact (UInt64.toNat_and ..).symm.trans (congrArg UInt64.toNat hexp)
  have hexponent : (Decimal.Binary64.ofBits bits).exponent = 2047 := by
    rw [Decimal.Binary64.ofBits, UInt64.toNat_and, UInt64.toNat_shiftRight, Nat.shiftRight_eq_div_pow]
    exact Nat.eq_of_mul_eq_mul_left (by decide) hmask
  rw [Decimal.Binary64.isNaN, hexponent, beq_self_eq_true, Bool.true_and, bne_iff_ne]
  exact fun h0 => hlow (UInt64.toNat.inj h0)

theorem is_float_ofFloatBits (bits : UInt64) : (ofFloatBits bits).is .float = Bool.true := by
  show (ofFloatBits bits).isFloat = Bool.true
  unfold ofFloatBits
  split_ifs with hn
  · decide
  · rw [← Bool.not_eq_false]
    intro hf
    simp only [isFloat, Bool.or_eq_false_iff, bne_eq_false_iff_eq, beq_eq_false_iff_ne] at hf
    exact hn (isNaN_of_masks hf.1.1.1.1 hf.1.1.1.2)

theorem bits_ofFloatBits (bits : UInt64) :
    (ofFloatBits bits).bits = if (Decimal.Binary64.ofBits bits).isNaN then quietNaN else bits := by
  unfold ofFloatBits
  split_ifs <;> rfl

end Value

/-! ## What constructors are given -/

/-- What a word can be made of: the numbers in range, and as many bits of everything else as there is room for. -/
inductive Datum where
  | fixnum (n : { n : Int // Value.minFixnum ≤ n ∧ n ≤ Value.maxFixnum })
  | symbol (name : Ident)
  | ref (page : Fin (2 ^ 20)) (cell : Fin (2 ^ 12)) (gen : UInt16)
  | frame (offset : Fin (2 ^ 48))
  | block (fn : { fn : FnId // fn.id.toNat < 2 ^ 24 }) (home : Fin (2 ^ 24))

namespace Datum

def kind : Datum → Kind
  | fixnum _ => .fixnum
  | symbol _ => .symbol
  | ref .. => .ref
  | frame _ => .frame
  | block .. => .block

/-- The constructor's word. -/
def make : Datum → Except Defect Value
  | fixnum n => Value.fixnum n
  | symbol name => .ok (.ofSymbol name)
  | ref page cell gen => .ok (.ofRef (.make (UInt64.ofNat page) (UInt64.ofNat cell) gen))
  | frame offset => .ok (.frameAt offset)
  | block fn home => .ok (.ofBlock fn (UInt64.ofNat home))

/-- The reader finds the datum in a word. -/
def ReadFrom (v : Value) : Datum → Prop
  | fixnum n => v.asFixnum = .ok n.val
  | symbol name => v.asSymbol = .ok name
  | ref page cell gen => ∃ r, v.asRef = .ok r ∧ r.page = page ∧ r.cell = cell ∧ r.gen = gen
  | frame offset => v.asFrame = .ok offset.val
  | block fn home => v.toBlock = (fn.val, home.val)

variable {d e : Datum} {v : Value}

theorem make_exact (d : Datum) : ∃ v, d.make = .ok v ∧ v.is d.kind = true ∧ d.ReadFrom v := by
  cases d with
  | fixnum n =>
    have hk := Value.isFixnum_ofInt n
    refine ⟨.ofInt n, ?_, hk, ?_⟩
    · have hn := n.2
      rw [make, Value.fixnum, Value.ofInt?, if_neg (by omega)]
    · rw [ReadFrom, Value.asFixnum, if_pos hk, Value.toInt_ofInt n.2]
  | symbol name =>
    have hk := Value.isSymbol_ofSymbol name
    exact ⟨_, rfl, hk, by rw [ReadFrom, Value.asSymbol, if_pos hk, Value.toSymbol_ofSymbol]⟩
  | ref page cell gen =>
    have hk := Value.isRef_ofRef (.make (UInt64.ofNat page) (UInt64.ofNat cell) gen)
    refine ⟨_, rfl, hk, _, by rw [Value.asRef, if_pos hk, Ref.toRef_ofRef_make page.2 cell.2], ?_⟩
    exact ⟨Ref.page_make page.2 cell.2 gen, Ref.cell_make page.2 cell.2 gen, Ref.gen_make page.2 cell.2 gen⟩
  | frame offset =>
    have hk := Value.isFrame_frameAt offset
    exact ⟨_, rfl, hk, by rw [ReadFrom, Value.asFrame, if_pos hk, Value.toFrame_frameAt offset.2]⟩
  | block fn home => exact ⟨_, rfl, Value.isBlock_ofBlock _ _, Value.toBlock_ofBlock fn.2 home.2⟩

/-- What a reader gives determines the datum. -/
theorem eq_of_readFrom (hk : d.kind = e.kind) (hd : d.ReadFrom v) (he : e.ReadFrom v) : d = e := by
  cases d with
  | fixnum n =>
    cases e with
    | fixnum m => exact congrArg fixnum (Subtype.ext (Except.ok.inj (hd.symm.trans he)))
    | _ => cases hk
  | symbol i =>
    cases e with
    | symbol j => exact congrArg symbol (Except.ok.inj (hd.symm.trans he))
    | _ => cases hk
  | ref page cell gen =>
    cases e with
    | ref page' cell' gen' =>
      obtain ⟨r, hr, hpage, hcell, hgen⟩ := hd
      obtain ⟨r', hr', hpage', hcell', hgen'⟩ := he
      obtain rfl : r = r' := Except.ok.inj (hr.symm.trans hr')
      rw [Fin.ext (hpage.symm.trans hpage'), Fin.ext (hcell.symm.trans hcell'), hgen.symm.trans hgen']
    | _ => cases hk
  | frame o =>
    cases e with
    | frame o' => exact congrArg frame (Fin.ext (Except.ok.inj (hd.symm.trans he)))
    | _ => cases hk
  | block fn home =>
    cases e with
    | block fn' home' =>
      obtain ⟨hfn, hhome⟩ := Prod.ext_iff.1 (hd.symm.trans he)
      rw [Subtype.ext hfn, Fin.ext hhome]
    | _ => cases hk

theorem kind_ne_float (d : Datum) : d.kind ≠ .float := by
  cases d <;> exact fun h => by cases h

end Datum

/-- Every word is of exactly one kind. The word of a float is a float, with the bits it was made of unless they are
those of a NaN; every other constructor gives, for whatever there is room for, a word of its own kind alone, from which
the datum can be read again; and no word is made of two data, or of a datum and a float. -/
theorem boxing_exact :
    (∀ v : Value, ∃! k, v.is k = true) ∧
    (∀ bits, (∀ k, (Value.ofFloatBits bits).is k = true ↔ k = .float) ∧
      (Value.ofFloatBits bits).bits = if (Decimal.Binary64.ofBits bits).isNaN then Value.quietNaN else bits) ∧
    (∀ d : Datum, ∃ v, d.make = .ok v ∧ (∀ k, v.is k = true ↔ k = d.kind) ∧ d.ReadFrom v) ∧
    (∀ (d e : Datum) v, d.make = .ok v → e.make = .ok v → d = e) ∧
    ∀ (d : Datum) bits, d.make ≠ .ok (Value.ofFloatBits bits) := by
  have only {v : Value} {k : Kind} (h : v.is k = true) (l : Kind) : v.is l = true ↔ l = k :=
    ⟨fun hl => Value.eq_of_is hl h, fun hl => hl ▸ h⟩
  have own {d : Datum} {v : Value} (h : d.make = .ok v) : v.is d.kind = true ∧ d.ReadFrom v := by
    obtain ⟨w, hw, hkind, hread⟩ := d.make_exact
    obtain rfl : w = v := Except.ok.inj (hw.symm.trans h)
    exact ⟨hkind, hread⟩
  refine ⟨Value.existsUnique_kind, fun bits => ⟨only (Value.is_float_ofFloatBits bits), Value.bits_ofFloatBits bits⟩,
    fun d => ?_, fun d e v hd he => ?_, fun d bits h => ?_⟩
  · obtain ⟨v, hv, hkind, hread⟩ := d.make_exact
    exact ⟨v, hv, only hkind, hread⟩
  · obtain ⟨hdk, hdr⟩ := own hd
    obtain ⟨hek, her⟩ := own he
    exact Datum.eq_of_readFrom (Value.eq_of_is hdk hek) hdr her
  · exact d.kind_ne_float ((only (Value.is_float_ofFloatBits bits) d.kind).1 (own h).1)

end RubyMachine
