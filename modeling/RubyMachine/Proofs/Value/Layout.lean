import Mathlib.Tactic
import RubyMachine.Value

/-! The fields of a word, read as numbers: tag and payload of a value, page, cell and generation of a
reference. What is put into a field comes out of it again. -/

namespace RubyMachine

/-! ## Bits as digits -/

/-- Low digits do not disturb a mask for the high ones. -/
theorem two_pow_mul_add_and {k a b m : Nat} (hb : b < 2 ^ k) : (2 ^ k * a + b) &&& (2 ^ k * m) = 2 ^ k * (a &&& m) := by
  refine Nat.eq_of_testBit_eq fun i => ?_
  rw [Nat.testBit_and, Nat.testBit_two_pow_mul_add _ hb, Nat.testBit_two_pow_mul, Nat.testBit_two_pow_mul,
    Nat.testBit_and]
  by_cases hi : i < k
  · simp [hi, Nat.not_le.2 hi]
  · simp [hi, Nat.not_lt.1 hi]

theorem toNat_or_of_lt {x y : UInt64} {k a : Nat} (hx : x.toNat = 2 ^ k * a) (hy : y.toNat < 2 ^ k) :
    (x ||| y).toNat = 2 ^ k * a + y.toNat := by
  rw [UInt64.toNat_or, hx, Nat.two_pow_add_eq_or_of_lt hy]

/-! ## Values -/

namespace Value

theorem toNat_payload (v : Value) : v.payload.toNat = v.bits.toNat % 2 ^ 48 := by
  rw [payload, UInt64.toNat_and, show payloadMask.toNat = 2 ^ 48 - 1 by decide, Nat.and_two_pow_sub_one_eq_mod]

theorem payload_lt (v : Value) : v.payload.toNat < 2 ^ 48 := by
  rw [toNat_payload]
  exact Nat.mod_lt _ (by decide)

/-- A tag as the number that stands above the payload. -/
theorem toNat_tagged {tag payload : UInt64} {t : Nat} (ht : (quietNaN ||| tag).toNat = 2 ^ 48 * t)
    (hp : payload.toNat < 2 ^ 48) : (tagged tag payload).bits.toNat = 2 ^ 48 * t + payload.toNat :=
  toNat_or_of_lt ht hp

theorem payload_tagged {tag payload : UInt64} {t : Nat} (ht : (quietNaN ||| tag).toNat = 2 ^ 48 * t)
    (hp : payload.toNat < 2 ^ 48) : (tagged tag payload).payload = payload := by
  apply UInt64.toNat.inj
  rw [toNat_payload, toNat_tagged ht hp, Nat.mul_add_mod, Nat.mod_eq_of_lt hp]

theorem tag_tagged {tag payload : UInt64} {t : Nat} (ht : (quietNaN ||| tag).toNat = 2 ^ 48 * t)
    (hm : t &&& 0x7FFF = t) (hp : payload.toNat < 2 ^ 48) : (tagged tag payload).tag = quietNaN ||| tag := by
  apply UInt64.toNat.inj
  rw [Value.tag, UInt64.toNat_and, toNat_tagged ht hp, show (quietNaN ||| tagMask).toNat = 2 ^ 48 * 0x7FFF by decide,
    two_pow_mul_add_and hp, hm, ht]

theorem toNat_refTag : (quietNaN ||| refTag).toNat = 2 ^ 48 * 0x7FF9 := by decide

theorem isRef_ofRef (r : Ref) : (ofRef r).isRef = Bool.true := by
  have hp : (r.bits &&& payloadMask).toNat < 2 ^ 48 := payload_lt ⟨r.bits⟩
  rw [isRef, hasTag, ofRef, tag_tagged toNat_refTag (by decide) hp, beq_self_eq_true]

theorem toRef_ofRef (r : Ref) : (ofRef r).toRef = ⟨r.bits &&& payloadMask⟩ := by
  have hp : (r.bits &&& payloadMask).toNat < 2 ^ 48 := payload_lt ⟨r.bits⟩
  rw [toRef, ofRef, payload_tagged toNat_refTag hp]

/-! ## Values that are no references -/

theorem isRef_tagged {tag payload : UInt64} {t : Nat} (ht : (quietNaN ||| tag).toNat = 2 ^ 48 * t)
    (hm : t &&& 0x7FFF = t) (hne : t ≠ 0x7FF9) (hp : payload.toNat < 2 ^ 48) :
    (tagged tag payload).isRef = Bool.false := by
  rw [isRef, hasTag, tag_tagged ht hm hp, beq_eq_false_iff_ne]
  intro he
  have := congrArg UInt64.toNat he
  rw [ht, toNat_refTag] at this
  omega

theorem isRef_ofInt (n : Int) : (ofInt n).isRef = Bool.false := by
  refine isRef_tagged (show (quietNaN ||| fixnumTag).toNat = 2 ^ 48 * 0x7FFA by decide) (by decide) (by decide) ?_
  rw [UInt64.toNat_ofNat']
  omega

theorem isRef_ofSymbol (i : Ident) : (ofSymbol i).isRef = Bool.false := by
  refine isRef_tagged (show (quietNaN ||| symbolTag).toNat = 2 ^ 48 * 0x7FFC by decide) (by decide) (by decide) ?_
  have := i.id.toNat_lt
  rw [UInt32.toNat_toUInt64]
  omega

theorem isRef_ofFrame (offset : UInt64) : (ofFrame offset).isRef = Bool.false :=
  isRef_tagged (show (quietNaN ||| frameTag).toNat = 2 ^ 48 * 0x7FFD by decide) (by decide) (by decide)
    (payload_lt ⟨offset⟩)

theorem isRef_frameAt (offset : Nat) : (frameAt offset).isRef = Bool.false := isRef_ofFrame _

theorem payload_ofBlock_lt (fn : FnId) (frame : UInt64) :
    ((fn.id.toUInt64 &&& 0xFFFFFF) <<< 24 ||| frame &&& 0xFFFFFF).toNat < 2 ^ 48 := by
  have hf : (frame &&& 0xFFFFFF).toNat < 2 ^ 24 := by
    rw [UInt64.toNat_and, show (0xFFFFFF : UInt64).toNat = 2 ^ 24 - 1 by decide, Nat.and_two_pow_sub_one_eq_mod]
    exact Nat.mod_lt _ (by decide)
  have hn : (fn.id.toUInt64 &&& 0xFFFFFF).toNat < 2 ^ 24 := by
    rw [UInt64.toNat_and, show (0xFFFFFF : UInt64).toNat = 2 ^ 24 - 1 by decide, Nat.and_two_pow_sub_one_eq_mod]
    exact Nat.mod_lt _ (by decide)
  have hs : ((fn.id.toUInt64 &&& 0xFFFFFF) <<< 24).toNat = 2 ^ 24 * (fn.id.toUInt64 &&& 0xFFFFFF).toNat := by
    rw [UInt64.toNat_shiftLeft, Nat.shiftLeft_eq, show (24 : UInt64).toNat % 64 = 24 by decide]
    omega
  rw [toNat_or_of_lt hs hf]
  omega

theorem isRef_ofBlock (fn : FnId) (frame : UInt64) : (ofBlock fn frame).isRef = Bool.false :=
  isRef_tagged (show (quietNaN ||| blockTag).toNat = 2 ^ 48 * 0x7FFE by decide) (by decide) (by decide)
    (payload_ofBlock_lt fn frame)

theorem isRef_ofBool (b : Bool) : (ofBool b).isRef = Bool.false := by
  cases b <;> decide

/-- The tag of a reference makes a word a NaN. -/
theorem isRef_ofFloatBits (bits : UInt64) : (ofFloatBits bits).isRef = Bool.false := by
  unfold ofFloatBits
  split_ifs with hn
  · decide
  · rw [isRef, hasTag, beq_eq_false_iff_ne]
    intro he
    have htag := congrArg UInt64.toNat he
    have hsplit : bits.toNat = 2 ^ 48 * (bits.toNat / 2 ^ 48) + bits.toNat % 2 ^ 48 := by omega
    have hlow : bits.toNat % 2 ^ 48 < 2 ^ 48 := Nat.mod_lt _ (by decide)
    rw [Value.tag, UInt64.toNat_and, toNat_refTag, show (quietNaN ||| tagMask).toNat = 2 ^ 48 * 0x7FFF by decide] at htag
    dsimp only at htag
    rw [hsplit, two_pow_mul_add_and hlow, show (0x7FFF : Nat) = 2 ^ 15 - 1 by decide,
      Nat.and_two_pow_sub_one_eq_mod] at htag
    refine hn ?_
    rw [Decimal.Binary64.isNaN, Bool.and_eq_true, beq_iff_eq, bne_iff_ne]
    simp only [Decimal.Binary64.ofBits, UInt64.toNat_and, UInt64.toNat_shiftRight]
    rw [show (0x7ff : UInt64).toNat = 2 ^ 11 - 1 by decide, show (0xfffffffffffff : UInt64).toNat = 2 ^ 52 - 1 by decide,
      Nat.and_two_pow_sub_one_eq_mod, Nat.and_two_pow_sub_one_eq_mod, show (52 : UInt64).toNat % 64 = 52 by decide,
      Nat.shiftRight_eq_div_pow]
    omega

theorem isRef_ofFloat (f : Float) : (ofFloat f).isRef = Bool.false := isRef_ofFloatBits _

end Value

/-! ## References -/

namespace Ref

theorem page_eq (r : Ref) : r.page = r.bits.toNat / 2 ^ 28 % 2 ^ 20 := by
  rw [page, UInt64.toNat_and, UInt64.toNat_shiftRight, show (0xFFFFF : UInt64).toNat = 2 ^ 20 - 1 by decide,
    Nat.and_two_pow_sub_one_eq_mod, Nat.shiftRight_eq_div_pow]
  rfl

theorem cell_eq (r : Ref) : r.cell = r.bits.toNat / 2 ^ 16 % 2 ^ 12 := by
  rw [cell, UInt64.toNat_and, UInt64.toNat_shiftRight, show (0xFFF : UInt64).toNat = 2 ^ 12 - 1 by decide,
    Nat.and_two_pow_sub_one_eq_mod, Nat.shiftRight_eq_div_pow]
  rfl

theorem gen_eq (r : Ref) : r.gen.toNat = r.bits.toNat % 2 ^ 16 := UInt64.toNat_toUInt16 r.bits

/-- Values refer to the same when page, cell and generation are the same. -/
theorem toRef_ext {v w : Value} (hp : v.toRef.page = w.toRef.page) (hc : v.toRef.cell = w.toRef.cell)
    (hg : v.toRef.gen = w.toRef.gen) : v.toRef = w.toRef := by
  have hg' := congrArg UInt16.toNat hg
  rw [page_eq, page_eq] at hp
  rw [cell_eq, cell_eq] at hc
  rw [gen_eq, gen_eq] at hg'
  have hv := Value.payload_lt v
  have hw := Value.payload_lt w
  refine congrArg Ref.mk (UInt64.toNat.inj ?_)
  simp only [Value.toRef] at hp hc hg'
  omega

theorem toNat_make {p c : Nat} (hp : p < 2 ^ 20) (hc : c < 2 ^ 12) (g : UInt16) :
    (make (UInt64.ofNat p) (UInt64.ofNat c) g).bits.toNat = 2 ^ 28 * p + 2 ^ 16 * c + g.toNat := by
  have hg : g.toUInt64.toNat < 2 ^ 16 := by rw [UInt16.toNat_toUInt64]; exact g.toNat_lt
  have h1 : (UInt64.ofNat p <<< 28).toNat = 2 ^ 28 * p := by
    rw [UInt64.toNat_shiftLeft, UInt64.toNat_ofNat_of_lt' (by simp [UInt64.size]; omega), Nat.shiftLeft_eq,
      Nat.mod_eq_of_lt (by simp; omega), Nat.mul_comm]
    rfl
  have h2 : (UInt64.ofNat c <<< 16).toNat = 2 ^ 16 * c := by
    rw [UInt64.toNat_shiftLeft, UInt64.toNat_ofNat_of_lt' (by simp [UInt64.size]; omega), Nat.shiftLeft_eq,
      Nat.mod_eq_of_lt (by simp; omega), Nat.mul_comm]
    rfl
  have h3 : (UInt64.ofNat p <<< 28 ||| UInt64.ofNat c <<< 16).toNat = 2 ^ 16 * (2 ^ 12 * p + c) := by
    rw [toNat_or_of_lt h1 (by rw [h2]; omega), h2]
    omega
  rw [make, toNat_or_of_lt h3 hg, UInt16.toNat_toUInt64]
  omega

/-- What a value made of a reference to an existing cell refers to. -/
theorem toRef_ofRef_make {p c : Nat} (hp : p < 2 ^ 20) (hc : c < 2 ^ 12) (g : UInt16) :
    (Value.ofRef (make (UInt64.ofNat p) (UInt64.ofNat c) g)).toRef = make (UInt64.ofNat p) (UInt64.ofNat c) g := by
  have hn := toNat_make hp hc g
  have hg := g.toNat_lt
  rw [Value.toRef_ofRef]
  generalize make (UInt64.ofNat p) (UInt64.ofNat c) g = r at hn
  cases r with | mk bits
  refine congrArg Ref.mk (UInt64.toNat.inj ?_)
  refine (Value.toNat_payload ⟨bits⟩).trans (Nat.mod_eq_of_lt ?_)
  show bits.toNat < _
  rw [hn]
  omega

theorem page_make {p c : Nat} (hp : p < 2 ^ 20) (hc : c < 2 ^ 12) (g : UInt16) :
    (make (UInt64.ofNat p) (UInt64.ofNat c) g).page = p := by
  have := g.toNat_lt
  rw [page_eq, toNat_make hp hc]
  omega

theorem cell_make {p c : Nat} (hp : p < 2 ^ 20) (hc : c < 2 ^ 12) (g : UInt16) :
    (make (UInt64.ofNat p) (UInt64.ofNat c) g).cell = c := by
  have := g.toNat_lt
  rw [cell_eq, toNat_make hp hc]
  omega

theorem gen_make {p c : Nat} (hp : p < 2 ^ 20) (hc : c < 2 ^ 12) (g : UInt16) :
    (make (UInt64.ofNat p) (UInt64.ofNat c) g).gen = g := by
  have := g.toNat_lt
  apply UInt16.toNat.inj
  rw [gen_eq, toNat_make hp hc]
  omega

end Ref

end RubyMachine
