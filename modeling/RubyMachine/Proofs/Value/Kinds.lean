import RubyMachine.Proofs.Value.Layout

/-! Words of different kinds are different, and every word that a constructor gives is of the kind it was
made for. -/

namespace RubyMachine.Value

def tags : List UInt64 := [refTag, fixnumTag, specialTag, symbolTag, frameTag, blockTag]

theorem tag_of_hasTag {v : Value} {t : UInt64} (h : v.hasTag t = Bool.true) : v.tag = quietNaN ||| t := beq_iff_eq.1 h

theorem hasTag_of_ne {v : Value} {t u : UInt64} (h : v.hasTag t = Bool.true) (hne : quietNaN ||| t ≠ quietNaN ||| u) :
    v.hasTag u = Bool.false := by
  rw [hasTag, beq_eq_false_iff_ne, tag_of_hasTag h]
  exact hne

/-- A mask within that of the tag sees the tag only. -/
theorem and_of_tag {v : Value} {c : UInt64} (h : v.tag = c) (mask : UInt64) (hm : (quietNaN ||| tagMask) &&& mask = mask) :
    v.bits &&& mask = c &&& mask := by
  rw [← h, tag, UInt64.and_assoc, hm]

theorem isFloat_of_tag {v : Value} {t : UInt64} (h : v.tag = quietNaN ||| t) (ht : t ∈ tags) :
    v.isFloat = Bool.false := by
  have hexp := and_of_tag h 0x7FF0000000000000 (by decide)
  have hquiet := and_of_tag h quietNaN (by decide)
  have htag := and_of_tag h tagMask (by decide)
  have hhigh := and_of_tag h 0x000F000000000000 (by decide)
  have hlow : v.bits &&& 0x000FFFFFFFFFFFFF ≠ 0 := by
    intro h0
    have : v.bits &&& 0x000F000000000000 = 0 := by
      rw [show (0x000F000000000000 : UInt64) = 0x000FFFFFFFFFFFFF &&& 0x000F000000000000 by decide, ← UInt64.and_assoc,
        h0, UInt64.zero_and]
    rw [hhigh] at this
    revert this
    simp only [tags, List.mem_cons, List.not_mem_nil, or_false] at ht
    rcases ht with rfl | rfl | rfl | rfl | rfl | rfl <;> decide
  rw [isFloat, hexp, hquiet, htag, beq_eq_false_iff_ne.2 hlow]
  simp only [tags, List.mem_cons, List.not_mem_nil, or_false] at ht
  rcases ht with rfl | rfl | rfl | rfl | rfl | rfl <;> decide

theorem isFloat_of_hasTag {v : Value} {t : UInt64} (h : v.hasTag t = Bool.true) (ht : t ∈ tags) :
    v.isFloat = Bool.false :=
  isFloat_of_tag (tag_of_hasTag h) ht

/-! ## What the constructors give -/

/-- The values that the constructors give. -/
inductive Built : Value → Prop where
  | nil : Built .nil
  | true : Built .true
  | false : Built .false
  | uninit : Built .uninit
  | int (n : Int) (h : minFixnum ≤ n ∧ n ≤ maxFixnum) : Built (ofInt n)
  | float (bits : UInt64) : Built (ofFloatBits bits)
  | symbol (i : Ident) : Built (ofSymbol i)
  | ref (r : Ref) : Built (ofRef r)
  | frame (offset : UInt64) : Built (ofFrame offset)
  | block (fn : FnId) (frame : UInt64) : Built (ofBlock fn frame)

theorem isFloat_tagged {t payload : UInt64} {k : Nat} (hk : (quietNaN ||| t).toNat = 2 ^ 48 * k) (hm : k &&& 0x7FFF = k)
    (hp : payload.toNat < 2 ^ 48) (ht : t ∈ tags) : (tagged t payload).isFloat = Bool.false :=
  isFloat_of_tag (tag_tagged hk hm hp) ht

theorem ofFloatBits_idem (bits : UInt64) : ofFloatBits (ofFloatBits bits).bits = ofFloatBits bits := by
  by_cases hn : (Decimal.Binary64.ofBits bits).isNaN = Bool.true
  · rw [show ofFloatBits bits = ⟨quietNaN⟩ from if_pos hn]
    exact ite_self _
  · rw [show ofFloatBits bits = ⟨bits⟩ from if_neg hn]
    exact if_neg hn

theorem symbol_payload_lt (i : Ident) : i.id.toUInt64.toNat < 2 ^ 48 := by
  have := i.id.toNat_lt
  rw [UInt32.toNat_toUInt64]
  omega

theorem int_payload_lt (n : Int) : (UInt64.ofNat (n % 0x1000000000000).toNat).toNat < 2 ^ 48 := by
  rw [UInt64.toNat_ofNat']
  omega

/-- A float that a constructor gave is the float of its own bits. -/
theorem Built.ofFloatBits {v : Value} (hv : v.Built) (hf : v.isFloat = Bool.true) : ofFloatBits v.bits = v := by
  have hne : v.isFloat ≠ Bool.false := by simp [hf]
  cases hv with
  | nil | true | false | uninit => exact absurd (by decide) hne
  | float bits => exact ofFloatBits_idem bits
  | int n h =>
    exact absurd (isFloat_tagged (show (quietNaN ||| fixnumTag).toNat = 2 ^ 48 * 0x7FFA by decide) (by decide)
      (int_payload_lt n) (by decide)) hne
  | symbol i =>
    exact absurd (isFloat_tagged (show (quietNaN ||| symbolTag).toNat = 2 ^ 48 * 0x7FFC by decide) (by decide)
      (symbol_payload_lt i) (by decide)) hne
  | ref r => exact absurd (isFloat_tagged toNat_refTag (by decide) (payload_lt ⟨r.bits⟩) (by decide)) hne
  | frame offset =>
    exact absurd (isFloat_tagged (show (quietNaN ||| frameTag).toNat = 2 ^ 48 * 0x7FFD by decide) (by decide)
      (payload_lt ⟨offset⟩) (by decide)) hne
  | block fn frame =>
    exact absurd (isFloat_tagged (show (quietNaN ||| blockTag).toNat = 2 ^ 48 * 0x7FFE by decide) (by decide)
      (payload_ofBlock_lt fn frame) (by decide)) hne

/-! ## Integers and names come out again -/

theorem isSymbol_ofSymbol (i : Ident) : (ofSymbol i).isSymbol = Bool.true := by
  rw [isSymbol, hasTag, ofSymbol, tag_tagged (show (quietNaN ||| symbolTag).toNat = 2 ^ 48 * 0x7FFC by decide) (by decide)
    (symbol_payload_lt i), beq_self_eq_true]

theorem toSymbol_ofSymbol (i : Ident) : (ofSymbol i).toSymbol = i := by
  rw [toSymbol, ofSymbol, payload_tagged (show (quietNaN ||| symbolTag).toNat = 2 ^ 48 * 0x7FFC by decide)
    (symbol_payload_lt i), UInt32.toUInt32_toUInt64]

theorem isFixnum_ofInt (n : Int) : (ofInt n).isFixnum = Bool.true := by
  rw [isFixnum, hasTag, ofInt, tag_tagged (show (quietNaN ||| fixnumTag).toNat = 2 ^ 48 * 0x7FFA by decide) (by decide)
    (int_payload_lt n), beq_self_eq_true]

theorem toInt_bounds (v : Value) : minFixnum ≤ v.toInt ∧ v.toInt ≤ maxFixnum := by
  have := payload_lt v
  unfold toInt minFixnum maxFixnum
  dsimp only
  split_ifs <;> omega

theorem toInt_ofInt {n : Int} (h : minFixnum ≤ n ∧ n ≤ maxFixnum) : (ofInt n).toInt = n := by
  unfold minFixnum maxFixnum at h
  rw [toInt, ofInt, payload_tagged (show (quietNaN ||| fixnumTag).toNat = 2 ^ 48 * 0x7FFA by decide) (int_payload_lt n)]
  rw [UInt64.toNat_ofNat']
  split_ifs <;> omega

/-- The integer of a word is one that there is a word for. -/
theorem ofInt?_toInt (v : Value) : ofInt? v.toInt = some (ofInt v.toInt) := by
  have := toInt_bounds v
  exact if_neg (by omega)

end RubyMachine.Value
