import Mathlib.Tactic
import Mathlib.Data.Int.Bitwise
import RubyMachine.Proofs.Machine.Operators

/-! Integers are computed exactly. Words of 64 bits are wide enough for every operator to tell whether its result is an
integer of 48 bits (`integers_exact`). -/

namespace RubyMachine

open Exec

namespace Number

variable {a b n : Int} {x y : Int64} {f : Failure}

/-! ## Integers in range -/

theorem inRange_iff : inRange n = true ↔ -2 ^ 47 ≤ n ∧ n < 2 ^ 47 := by
  unfold inRange Value.minFixnum Value.maxFixnum
  rw [Bool.and_eq_true, decide_eq_true_eq, decide_eq_true_eq]
  omega

theorem inRange_eq_false : inRange n = false ↔ n < -2 ^ 47 ∨ 2 ^ 47 ≤ n := by
  rw [← Bool.not_eq_true, inRange_iff]
  omega

/-- The outcome of an operator whose exact result is `n`. -/
def Exact (r : Except Failure Value) (n : Int) : Prop :=
  if inRange n then r = .ok (.ofInt n) else ∃ f, r = .error f ∧ f.kind = .range

theorem Exact.refused (hf : f.kind = .range) (hn : inRange n = false) : Exact (.error f) n := by
  rw [Exact, hn]
  exact ⟨f, rfl, hf⟩

theorem exact_fixnum (n : Int) : Exact (fixnum n) n := by
  cases hn : inRange n with
  | true =>
    have := inRange_iff.1 hn
    rw [Exact, if_pos hn, fixnum, Value.ofInt?, if_neg (by unfold Value.minFixnum Value.maxFixnum; omega)]
  | false =>
    have : ¬(-2 ^ 47 ≤ n ∧ n < 2 ^ 47) := fun h => absurd (inRange_iff.2 h) (by rw [hn]; decide)
    rw [fixnum, Value.ofInt?, if_pos (by unfold Value.minFixnum Value.maxFixnum; omega)]
    exact .refused rfl hn

/-! ## Words -/

/-- What fits in a word is left as it is. -/
theorem bmod_word (hlo : -2 ^ 63 ≤ n) (hhi : n < 2 ^ 63) : n.bmod (2 ^ 64) = n :=
  Int.bmod_eq_of_le (by omega) (by omega)

/-- An integer of 48 bits is the word that it is computed with. -/
theorem toInt_word (h : inRange n = true) : (Int64.ofInt n).toInt = n := by
  have := inRange_iff.1 h
  exact Int64.toInt_ofInt_of_le (by omega) (by omega)

theorem lt_zero_iff (x : Int64) : x < 0 ↔ x.toInt < 0 := by
  rw [Int64.lt_iff_toInt_lt, Int64.toInt_zero]

/-- The bits of a word without their sign. -/
theorem toNat_toUInt64 (x : Int64) : (x.toUInt64.toNat : Int) = x.toInt % 2 ^ 64 := by
  have hx : x.toInt = (x.toUInt64.toNat : Int).bmod (2 ^ 64) := BitVec.toInt_eq_toNat_bmod x.toBitVec
  have hlt : (x.toUInt64.toNat : Int) < 2 ^ 64 := by exact_mod_cast x.toUInt64.toNat_lt
  rw [hx, Int.bmod_def]
  split_ifs <;> omega

theorem toInt_toInt64 (u : UInt64) : u.toInt64.toInt = (u.toNat : Int).bmod (2 ^ 64) :=
  BitVec.toInt_eq_toNat_bmod u.toBitVec

/-! ## Products and powers -/

theorem toNat_magnitude (x : Int64) : (magnitude x).toNat = x.toInt.natAbs := by
  have hlo := x.le_toInt
  have hhi := x.toInt_lt
  unfold magnitude
  split_ifs with h
  · rw [lt_zero_iff] at h
    have hbits := toNat_toUInt64 (-x)
    rw [Int64.toInt_neg, Int.bmod_def] at hbits
    split_ifs at hbits <;> omega
  · rw [lt_zero_iff] at h
    have hbits := toNat_toUInt64 x
    omega

theorem mulWide_eq (u v : UInt64) :
    (mulWide u v).1.toNat = u.toNat * v.toNat / 2 ^ 64 ∧ (mulWide u v).2.toNat = u.toNat * v.toNat % 2 ^ 64 := by
  have hlt : u.toNat * v.toNat < 2 ^ 64 * 2 ^ 64 := Nat.mul_lt_mul'' u.toNat_lt v.toNat_lt
  have hhigh : (mulWide u v).1.toNat = u.toNat * v.toNat / 2 ^ 64 % 2 ^ 64 := UInt64.toNat_ofNat'
  exact ⟨by rw [hhigh, Nat.mod_eq_of_lt (Nat.div_lt_of_lt_mul hlt)], UInt64.toNat_ofNat'⟩

/-- A product is found if a word can hold its magnitude, and then it is exact. -/
theorem multiply?_eq (x y : Int64) :
    multiply? x y = if (x.toInt * y.toInt).natAbs < 2 ^ 63 then some (.ofInt (x.toInt * y.toInt)) else none := by
  obtain ⟨hhigh, hlow⟩ := mulWide_eq (magnitude x) (magnitude y)
  rw [toNat_magnitude, toNat_magnitude, ← Int.natAbs_mul] at hhigh hlow
  unfold multiply?
  dsimp only
  generalize (mulWide (magnitude x) (magnitude y)).1 = high at hhigh ⊢
  generalize (mulWide (magnitude x) (magnitude y)).2 = low at hlow ⊢
  have hrefused : (high ≠ 0 ∨ maxWord < low.toNat) ↔ ¬(x.toInt * y.toInt).natAbs < 2 ^ 63 := by
    rw [ne_eq, ← UInt64.toNat_inj, hhigh, hlow, UInt64.toNat_zero, show maxWord = 2 ^ 63 - 1 from rfl]
    omega
  by_cases hfits : (x.toInt * y.toInt).natAbs < 2 ^ 63
  · rw [if_neg (not_not_intro hfits ∘ hrefused.1), if_pos hfits]
    have hlow : low.toInt64.toInt = (x.toInt * y.toInt).natAbs := by
      rw [toInt_toInt64, hlow, Nat.mod_eq_of_lt (by omega), bmod_word (by omega) (by omega)]
    congr 1
    apply Int64.toInt.inj
    rw [Int64.toInt_ofInt, show Int64.size = 2 ^ 64 from rfl, bmod_word (by omega) (by omega)]
    simp only [lt_zero_iff]
    rcases lt_or_ge x.toInt 0 with hx | hx <;> rcases lt_or_ge y.toInt 0 with hy | hy
    · have := mul_nonneg_of_nonpos_of_nonpos hx.le hy.le
      rw [if_neg (by simp [hx, hy]), hlow]
      omega
    · have := mul_nonpos_of_nonpos_of_nonneg hx.le hy
      rw [if_pos (by simp [hx, hy.not_gt]), Int64.toInt_neg, hlow, bmod_word (by omega) (by omega)]
      omega
    · have := mul_nonpos_of_nonneg_of_nonpos hx hy.le
      rw [if_pos (by simp [hx.not_gt, hy]), Int64.toInt_neg, hlow, bmod_word (by omega) (by omega)]
      omega
    · have := mul_nonneg hx hy
      rw [if_neg (by simp [hx.not_gt, hy.not_gt]), hlow]
      omega
  · rw [if_pos (hrefused.2 hfits), if_neg hfits]

theorem exact_multiply (x y : Int64) : Exact (multiply x y) (x.toInt * y.toInt) := by
  rw [multiply, multiply?_eq]
  split_ifs with h
  · have hp : (Int64.ofInt (x.toInt * y.toInt)).toInt = x.toInt * y.toInt := Int64.toInt_ofInt_of_le (by omega) (by omega)
    dsimp only
    rw [hp]
    exact exact_fixnum _
  · exact .refused rfl (inRange_eq_false.2 (by omega))

/-- A power that is out of range never comes back. -/
theorem pow_out_of_range {k m : Nat} (h : inRange (a ^ k) = false) (hkm : k ≤ m) : inRange (a ^ m) = false := by
  obtain ⟨j, rfl⟩ := Nat.exists_eq_add_of_le hkm
  rw [inRange_eq_false] at h ⊢
  have hk : 2 ^ 47 ≤ a.natAbs ^ k := by
    rw [← Int.natAbs_pow]
    omega
  have ha : 2 ≤ a.natAbs := by
    by_contra hlt
    have hone : a.natAbs ^ k ≤ 1 ^ k := Nat.pow_le_pow_left (by omega) k
    rw [Nat.one_pow] at hone
    omega
  cases j with
  | zero => exact h
  | succ j =>
    have hj : 2 ≤ a.natAbs ^ (j + 1) := le_trans ha (Nat.le_self_pow (by omega) _)
    have hprod : 2 ^ 47 * 2 ≤ (a ^ (k + (j + 1))).natAbs := by
      rw [Int.natAbs_pow, Nat.pow_add]
      exact Nat.mul_le_mul hk hj
    omega

theorem exact_powerFrom (x : Int64) {r : Int64} {k : Nat} (hr : r.toInt = x.toInt ^ k) (m : Nat) :
    Exact (powerFrom x r m) (x.toInt ^ (k + m)) := by
  induction m generalizing r k with
  | zero =>
    rw [powerFrom, hr]
    exact exact_fixnum _
  | succ m ih =>
    have hpow : r.toInt * x.toInt = x.toInt ^ (k + 1) := by rw [hr, pow_succ]
    have hout : inRange (x.toInt ^ (k + 1)) = false → inRange (x.toInt ^ (k + (m + 1))) = false := fun h =>
      pow_out_of_range h (by omega)
    rw [powerFrom, multiply?_eq, hpow]
    split_ifs with hfits
    · have hp : (Int64.ofInt (x.toInt ^ (k + 1))).toInt = x.toInt ^ (k + 1) := Int64.toInt_ofInt_of_le (by omega) (by omega)
      dsimp only
      rw [hp]
      split_ifs with hin
      · have h := ih hp
        rwa [Nat.add_assoc, Nat.add_comm 1 m] at h
      · exact .refused rfl (hout (Bool.eq_false_of_not_eq_true hin))
    · exact .refused rfl (hout (inRange_eq_false.2 (by omega)))

/-! ## Quotients and remainders -/

theorem toInt_floorDiv (hy : y.toInt ≠ 0) (hx : x.toInt ≠ -2 ^ 63) : (floorDiv x y).toInt = x.toInt.fdiv y.toInt := by
  have hlo := x.le_toInt
  have hhi := x.toInt_lt
  have habs := Int.natAbs_tdiv_le_natAbs x.toInt y.toInt
  have hquot : (x / y).toInt = x.toInt.tdiv y.toInt := by
    rw [Int64.toInt_div, bmod_word (by omega) (by omega)]
  have hrem : x % y = 0 ↔ y.toInt ∣ x.toInt := by
    rw [← Int64.toInt_inj, Int64.toInt_mod, Int64.toInt_zero, Int.dvd_iff_tmod_eq_zero]
  unfold floorDiv
  simp only [ne_eq, hrem, lt_zero_iff]
  rw [Int.fdiv_eq_tdiv]
  by_cases hd : y.toInt ∣ x.toInt
  · rw [if_neg (by simp [hd]), if_pos hd, hquot, Int.sub_zero]
  rw [if_neg hd]
  have hdown : (x / y - 1).toInt = x.toInt.tdiv y.toInt - 1 := by
    have hone : (1 : Int64).toInt = 1 := rfl
    rw [Int64.toInt_sub, hquot, hone, bmod_word (by omega) (by omega)]
  rcases lt_or_ge x.toInt 0 with hx | hx <;> rcases lt_or_ge y.toInt 0 with hy' | hy'
  · rw [if_neg (by simp [hx, hy']), if_neg (by omega), if_neg (by omega), Int.sign_eq_neg_one_of_neg hy', hquot]
    omega
  · rw [if_pos (by simp [hd, hx, hy'.not_gt]), if_neg (by omega), if_pos hy', Int.sign_eq_one_of_pos (by omega), hdown]
  · rw [if_pos (by simp [hd, hx.not_gt, hy']), if_pos hx, if_neg (by omega), hdown]
  · rw [if_neg (by simp [hx.not_gt, hy'.not_gt]), if_pos hx, if_pos hy', hquot, Int.sub_zero]

theorem natAbs_fmod_lt (a : Int) (hb : b ≠ 0) : (a.fmod b).natAbs < b.natAbs := by
  rcases lt_or_gt_of_ne hb with h | h
  · have hlo := Int.fmod_nonneg_of_pos (-a) (b := -b) (by omega)
    have hhi := Int.fmod_lt_of_pos (-a) (b := -b) (by omega)
    rw [Int.neg_fmod_neg] at hlo hhi
    omega
  · have hlo := Int.fmod_nonneg_of_pos a h
    have hhi := Int.fmod_lt_of_pos a h
    omega

theorem toInt_rem (hy : y.toInt ≠ 0) (hx : x.toInt ≠ -2 ^ 63) : (x - floorDiv x y * y).toInt = x.toInt.fmod y.toInt := by
  have hlt := natAbs_fmod_lt x.toInt hy
  have hlo := y.le_toInt
  have hhi := y.toInt_lt
  have hrem := bmod_word (n := x.toInt.fmod y.toInt) (by omega) (by omega)
  rw [← hrem, Int64.toInt_sub, Int64.toInt_mul, toInt_floorDiv hy hx, Int.sub_bmod_bmod, Int.fmod_def, Int.mul_comm]

/-! ## Shifts -/

/-- A width below 64 counts in full. -/
theorem toNat_width {k : Nat} (hn : x.toInt = k) (hk : k < 64) : (x.toBitVec.smod 64#64).toNat = k := by
  have hx : x.toBitVec.toInt = k := hn
  have hmod : (x.toBitVec.smod 64#64).toInt = k := by
    rw [BitVec.toInt_smod, hx, show (64#64).toInt = 64 from rfl, Int.fmod_eq_of_lt (by omega) (by omega)]
  have hnat := BitVec.toInt_eq_toNat_cond (x.toBitVec.smod 64#64)
  have hlt := (x.toBitVec.smod 64#64).isLt
  split_ifs at hnat <;> omega

theorem toInt_shiftRight {k : Nat} (hn : y.toInt = k) (hk : k < 64) : (x >>> y).toInt = x.toInt / 2 ^ k := by
  have hbits : (x >>> y).toInt = (x.toBitVec.sshiftRight' (y.toBitVec.smod 64#64)).toInt := rfl
  rw [hbits, BitVec.sshiftRight_eq', toNat_width hn hk, BitVec.toInt_sshiftRight, Int.shiftRight_eq_div_pow]
  norm_cast

theorem toInt_shiftLeft {k : Nat} (hn : y.toInt = k) (hk : k < 48) :
    (x <<< y).toInt = (x.toInt * 2 ^ k).bmod (2 ^ 64) := by
  have hbits : (x <<< y).toInt = (x.toBitVec <<< (y.toBitVec.smod 64#64).toNat).toInt := rfl
  have hpow : (BitVec.twoPow 64 k).toInt = 2 ^ k := by
    rw [BitVec.toInt_twoPow, if_neg (by omega), if_neg (by omega)]
  rw [hbits, toNat_width hn (by omega), BitVec.shiftLeft_eq_mul_twoPow, BitVec.toInt_mul, hpow]
  rfl

/-- `a` shifted to the left by `n`, or to the right when `n` is negative. -/
def shifted (a n : Int) : Int := if 0 ≤ n then a * 2 ^ n.toNat else a / 2 ^ (-n).toNat

/-- Every width that is too large leaves nothing but the sign. -/
theorem ediv_eq_sign {k : Nat} (ha : inRange a = true) (hk : 63 ≤ k) : a / 2 ^ k = if a < 0 then -1 else 0 := by
  have := inRange_iff.1 ha
  have hpow : (2 : Int) ^ 63 ≤ 2 ^ k := pow_le_pow_right₀ (by omega) hk
  split_ifs with h
  · exact Int.ediv_eq_neg_one_of_neg_of_le (by omega) (by omega)
  · exact Int.ediv_eq_zero_of_lt (by omega) (by omega)

theorem exact_shiftRight {x n : Int64} (hx : inRange x.toInt = true) (hlo : -2 ^ 63 < n.toInt) (hn : n.toInt < 0) :
    Exact (Number.shiftLeft x n) (x.toInt / 2 ^ (-n.toInt).toNat) := by
  have hneg : (-n).toInt = (-n.toInt).toNat := by
    rw [Int64.toInt_neg, bmod_word (by omega) (by omega)]
    omega
  have hwide : n ≤ -63 ↔ n.toInt ≤ -63 := Int64.le_iff_toInt_le
  unfold Number.shiftLeft
  rw [if_pos ((lt_zero_iff n).2 hn)]
  by_cases hw : n.toInt ≤ -63
  · rw [if_pos (hwide.2 hw), ediv_eq_sign hx (by omega)]
    simp only [lt_zero_iff]
    split_ifs <;> rfl
  · rw [if_neg fun h => hw (hwide.1 h), toInt_shiftRight hneg (by omega)]
    exact exact_fixnum _

/-- A shift to the left is exact if shifting back gives what was there. -/
theorem shift_back {k : Nat} (hn : y.toInt = k) (hk : k < 48) :
    x <<< y >>> y = x ↔ (x <<< y).toInt = x.toInt * 2 ^ k := by
  have hpos : (0 : Int) < 2 ^ k := Int.pow_pos (by decide)
  rw [← Int64.toInt_inj, toInt_shiftRight hn (by omega)]
  constructor
  · intro h
    -- what was lost is a multiple of the size of a word, and so of that of the shift
    have hdvd : (2 : Int) ^ k ∣ (x <<< y).toInt := by
      rw [toInt_shiftLeft hn hk, Int.bmod_def]
      have hword : (2 : Int) ^ k ∣ (2 ^ 64 : Nat) := by exact_mod_cast pow_dvd_pow 2 (show k ≤ 64 by omega)
      have hmod : (2 : Int) ^ k ∣ x.toInt * 2 ^ k % (2 ^ 64 : Nat) := by
        rw [Int.emod_def]
        exact dvd_sub (dvd_mul_left _ _) (hword.mul_right _)
      split_ifs
      · exact hmod
      · exact dvd_sub hmod hword
    rw [← h, Int.ediv_mul_cancel hdvd]
  · intro h
    rw [h, Int.mul_ediv_cancel _ hpos.ne']

theorem exact_shiftLeft {x n : Int64} (hx : inRange x.toInt = true) (hn : 0 ≤ n.toInt) :
    Exact (Number.shiftLeft x n) (x.toInt * 2 ^ n.toInt.toNat) := by
  have hbounds := inRange_iff.1 hx
  have hwide : 48 ≤ n ↔ 48 ≤ n.toInt := Int64.le_iff_toInt_le
  have hzero : x = 0 ↔ x.toInt = 0 := by rw [← Int64.toInt_inj, Int64.toInt_zero]
  unfold Number.shiftLeft
  rw [if_neg fun h => absurd ((lt_zero_iff n).1 h) (by omega)]
  dsimp only
  by_cases hw : 48 ≤ n.toInt
  · by_cases hx0 : x.toInt = 0
    · have hnone : (0 : Int64) <<< n = 0 := Int64.zero_shiftLeft
      rw [if_neg fun h => h.2 (hzero.2 hx0), hzero.2 hx0, hnone, Int64.zero_shiftRight, if_neg (not_not.2 rfl),
        Int64.toInt_zero, Int.zero_mul]
      exact exact_fixnum 0
    · rw [if_pos ⟨hwide.2 hw, fun h => hx0 (hzero.1 h)⟩]
      refine .refused rfl (inRange_eq_false.2 ?_)
      have hpow : (2 : Int) ^ 48 ≤ 2 ^ n.toInt.toNat := pow_le_pow_right₀ (by omega) (by omega)
      rcases lt_or_gt_of_ne hx0 with h | h
      · have := mul_le_mul_of_nonpos_left hpow (show x.toInt ≤ 0 by omega)
        omega
      · have := mul_le_mul_of_nonneg_left hpow (show 0 ≤ x.toInt by omega)
        omega
  rw [if_neg fun h => hw (hwide.1 h.1)]
  have hk : n.toInt = n.toInt.toNat := by omega
  split_ifs with hback
  · refine .refused rfl (inRange_eq_false.2 ?_)
    rw [ne_eq, shift_back hk (by omega), toInt_shiftLeft hk (by omega)] at hback
    by_contra hin
    exact hback (bmod_word (by omega) (by omega))
  · rw [(shift_back hk (by omega)).1 (not_not.1 hback)]
    exact exact_fixnum _

/-! ## Bits -/

/-- Integers with the same bits are the same. -/
theorem eq_of_testBit (h : ∀ k, Int.testBit a k = Int.testBit b k) : a = b := by
  -- beyond all of their digits, numbers that are not negative have no bits, and the others have all
  have differ (i j : Nat) (hij : ∀ k, Nat.testBit i k = !Nat.testBit j k) : False := by
    have hi : i < 2 ^ (i + j) := lt_of_le_of_lt (Nat.le_add_right i j) Nat.lt_two_pow_self
    have hj : j < 2 ^ (i + j) := lt_of_le_of_lt (Nat.le_add_left j i) Nat.lt_two_pow_self
    have := hij (i + j)
    rw [Nat.testBit_lt_two_pow hi, Nat.testBit_lt_two_pow hj] at this
    cases this
  cases a with
  | ofNat i =>
    cases b with
    | ofNat j => exact congrArg Int.ofNat (Nat.eq_of_testBit_eq h)
    | negSucc j => exact (differ i j h).elim
  | negSucc i =>
    cases b with
    | ofNat j => exact (differ j i fun k => (h k).symm).elim
    | negSucc j => exact congrArg Int.negSucc (Nat.eq_of_testBit_eq fun k => Bool.not_inj (h k))

/-- The bits of a word, the sign going on without an end. -/
theorem testBit_toInt (x : Int64) (k : Nat) :
    Int.testBit x.toInt k = if k < 64 then x.toBitVec.getLsbD k else x.toBitVec.msb := by
  have hlt := x.toBitVec.isLt
  rw [← Int64.toInt_toBitVec, BitVec.toInt_eq_msb_cond]
  cases hm : x.toBitVec.msb with
  | false =>
    have hhigh : 64 ≤ k → x.toBitVec.getLsbD k = false := fun h => BitVec.getLsbD_of_ge _ _ h
    have hbit : Int.testBit (x.toBitVec.toNat : Int) k = x.toBitVec.getLsbD k := rfl
    rw [if_neg (by decide), hbit]
    split_ifs with h
    · rfl
    · exact hhigh (by omega)
  | true =>
    rw [if_pos rfl]
    have hneg : (x.toBitVec.toNat : Int) - (2 ^ 64 : Nat) = Int.negSucc (2 ^ 64 - (x.toBitVec.toNat + 1)) := by omega
    have hbit (j : Nat) : Int.testBit (Int.negSucc j) k = !j.testBit k := rfl
    rw [hneg, hbit, Nat.testBit_two_pow_sub_succ hlt]
    split_ifs with h
    · rw [decide_eq_true h, Bool.true_and, Bool.not_not]
      rfl
    · rw [decide_eq_false h, Bool.false_and, Bool.not_false]

theorem toInt_or (x y : Int64) : (x ||| y).toInt = Int.lor x.toInt y.toInt := by
  refine eq_of_testBit fun k => ?_
  rw [Int.testBit_lor, testBit_toInt, testBit_toInt, testBit_toInt, Int64.toBitVec_or]
  split_ifs
  · exact BitVec.getLsbD_or
  · exact BitVec.msb_or

theorem toInt_and (x y : Int64) : (x &&& y).toInt = Int.land x.toInt y.toInt := by
  refine eq_of_testBit fun k => ?_
  rw [Int.testBit_land, testBit_toInt, testBit_toInt, testBit_toInt, Int64.toBitVec_and]
  split_ifs
  · exact BitVec.getLsbD_and
  · exact BitVec.msb_and

theorem toInt_xor (x y : Int64) : (x ^^^ y).toInt = Int.xor x.toInt y.toInt := by
  refine eq_of_testBit fun k => ?_
  rw [Int.testBit_lxor, testBit_toInt, testBit_toInt, testBit_toInt, Int64.toBitVec_xor]
  split_ifs
  · exact BitVec.getLsbD_xor
  · exact BitVec.msb_xor

end Number

/-! ## Operators -/

open Number

variable {a b n : Int} {x y : Int64} {op : Code.Opcode} {o : Operator}

/-- What an operator gives on integers that are not bounded, where its result is an integer. -/
def Operator.exact? (o : Operator) (a b : Int) : Option Int :=
  match o with
  | .add => some (a + b)
  | .sub => some (a - b)
  | .mul => some (a * b)
  | .div => if b = 0 then none else some (a.fdiv b)
  | .rem => if b = 0 then none else some (a.fmod b)
  | .pow => if b < 0 then none else some (a ^ b.toNat)
  | .shl => some (shifted a b)
  | .shr => some (shifted a (-b))
  | .bitOr => some (a.lor b)
  | .bitAnd => some (a.land b)
  | .bitXor => some (a.xor b)
  | .eq | .ne | .teq | .gt | .ge | .lt | .le | .cmp => none

namespace Number

theorem exact_shift (hx : inRange x.toInt = true) (hlo : -2 ^ 63 < y.toInt) :
    Exact (Number.shiftLeft x y) (shifted x.toInt y.toInt) := by
  unfold shifted
  split_ifs with hn
  · exact exact_shiftLeft hx hn
  · exact exact_shiftRight hx hlo (by omega)

/-- Every operator on integers is exact. -/
theorem exact_integerOp (inverse : Int → Int → Value) (hx : inRange x.toInt = true) (hy : inRange y.toInt = true)
    (ho : o.exact? x.toInt y.toInt = some n) : Exact (integerOp o x y inverse) n := by
  have hxb := inRange_iff.1 hx
  have hyb := inRange_iff.1 hy
  have hzero : y = 0 ↔ y.toInt = 0 := by rw [← Int64.toInt_inj, Int64.toInt_zero]
  have hmin : x.toInt ≠ -2 ^ 63 := by omega
  cases o with
  | add =>
    cases ho
    rw [integerOp, Int64.toInt_add, bmod_word (by omega) (by omega)]
    exact exact_fixnum _
  | sub =>
    cases ho
    rw [integerOp, Int64.toInt_sub, bmod_word (by omega) (by omega)]
    exact exact_fixnum _
  | mul =>
    cases ho
    exact exact_multiply x y
  | div =>
    have ho : (if y.toInt = 0 then none else some (x.toInt.fdiv y.toInt)) = some n := ho
    split_ifs at ho with hy0
    cases ho
    rw [integerOp, if_neg (hy0 ∘ hzero.1), toInt_floorDiv hy0 hmin]
    exact exact_fixnum _
  | rem =>
    have ho : (if y.toInt = 0 then none else some (x.toInt.fmod y.toInt)) = some n := ho
    split_ifs at ho with hy0
    cases ho
    rw [integerOp, if_neg (hy0 ∘ hzero.1), toInt_rem hy0 hmin]
    exact exact_fixnum _
  | pow =>
    have ho : (if y.toInt < 0 then none else some (x.toInt ^ y.toInt.toNat)) = some n := ho
    split_ifs at ho with hneg
    cases ho
    have hone : (1 : Int64).toInt = x.toInt ^ 0 := (pow_zero _).symm
    have h := exact_powerFrom x hone y.toInt.toNat
    rw [Nat.zero_add] at h
    rwa [integerOp, if_neg (hneg ∘ (lt_zero_iff y).1)]
  | shl =>
    cases ho
    exact exact_shift hx (by omega)
  | shr =>
    cases ho
    have hneg : (-y).toInt = -y.toInt := by rw [Int64.toInt_neg, bmod_word (by omega) (by omega)]
    rw [integerOp, ← hneg]
    exact exact_shift hx (by omega)
  | bitOr =>
    cases ho
    rw [integerOp, toInt_or]
    exact exact_fixnum _
  | bitAnd =>
    cases ho
    rw [integerOp, toInt_and]
    exact exact_fixnum _
  | bitXor =>
    cases ho
    rw [integerOp, toInt_xor]
    exact exact_fixnum _
  | eq | ne | teq | gt | ge | lt | le | cmp => cases ho

theorem exact_negate (hx : inRange x.toInt = true) : Exact (negate x) (-x.toInt) := by
  have := inRange_iff.1 hx
  rw [negate, Int64.toInt_neg, bmod_word (by omega) (by omega)]
  exact exact_fixnum _

theorem complement_eq (x : Int64) : complement x = .ofInt (-x.toInt - 1) := by
  rw [complement, Int64.toInt_not]
  congr 1
  have hlo := x.le_toInt
  have hhi := x.toInt_lt
  exact bmod_word (by omega) (by omega)

/-- What is in range is never refused. -/
theorem Exact.of_inRange {r : Except Failure Value} (h : Exact r n) (hn : inRange n = true) : r = .ok (.ofInt n) := by
  rwa [Exact, if_pos hn] at h

/-- The only failure of an exact result is that it is out of range. -/
theorem Exact.kind_of_error {f : Failure} (h : Exact (.error f) n) : f.kind = .range := by
  unfold Exact at h
  split_ifs at h
  obtain ⟨f', hf, hkind⟩ := h
  cases hf
  exact hkind

/-- The remainder of a division rounded down has the sign of the divisor. -/
theorem fmod_sign (a : Int) (hb : b ≠ 0) : a.fmod b = 0 ∨ (a.fmod b).sign = b.sign := by
  rw [or_iff_not_imp_left]
  intro hr
  rcases lt_or_gt_of_ne hb with h | h
  · have := Int.fmod_nonneg_of_pos (-a) (b := -b) (by omega)
    rw [Int.neg_fmod_neg] at this
    rw [Int.sign_eq_neg_one_of_neg h, Int.sign_eq_neg_one_of_neg (by omega)]
  · have := Int.fmod_nonneg_of_pos a h
    rw [Int.sign_eq_one_of_pos h, Int.sign_eq_one_of_pos (by omega)]

end Number

open Number

variable {act : Activation} {pc : Nat}

/-- An instruction of an operator comes to what the operator gives on the words of its operands. -/
theorem computes_integers (ha : inRange a = true) (hb : inRange b = true) (ho : Operator.ofOpcode? op = some o) :
    (Site.mk act pc op).Computes [.ofInt a, .ofInt b] (integerOp o (.ofInt a) (.ofInt b) inversePower) := by
  refine Site.computes_binary ho fun m => ?_
  unfold operation
  rw [Value.isFixnum_ofInt, Value.isFixnum_ofInt, Value.toInt_ofInt (by simpa [inRange] using ha),
    Value.toInt_ofInt (by simpa [inRange] using hb)]
  rfl

theorem computes_exact (act : Activation) (pc : Nat) (ha : inRange a = true) (hb : inRange b = true)
    (ho : Operator.ofOpcode? op = some o) (hn : o.exact? a b = some n) :
    ∃ r, (Site.mk act pc op).Computes [.ofInt a, .ofInt b] r ∧ Exact r n := by
  refine ⟨_, computes_integers ha hb ho, exact_integerOp _ ?_ ?_ ?_⟩
  · rwa [toInt_word ha]
  · rwa [toInt_word hb]
  · rwa [toInt_word ha, toInt_word hb]

/-- Arithmetic on integers of 48 bits is exact. An operator gives the integer it should, or fails for its range: a sum, a
difference, a product, a quotient and a remainder rounded down, a power, a shift by any width and each operator on bits.
Division fails for its divisor just when that is 0. -/
theorem integers_exact (act : Activation) (pc : Nat) (ha : inRange a = true) (hb : inRange b = true) :
    (∀ op o n, Operator.ofOpcode? op = some o → o.exact? a b = some n →
      ∃ r, (Site.mk act pc op).Computes [.ofInt a, .ofInt b] r ∧ Exact r n) ∧
    (∀ op, op = .div ∨ op = .rem → ∃ r, (Site.mk act pc op).Computes [.ofInt a, .ofInt b] r ∧
      ((∃ f, r = .error f ∧ f.kind = .zeroDivision) ↔ b = 0)) ∧
    (b ≠ 0 → inRange (a.fdiv b) = true → ∃ q r,
      (Site.mk act pc .div).Computes [.ofInt a, .ofInt b] (.ok (.ofInt q)) ∧
      (Site.mk act pc .rem).Computes [.ofInt a, .ofInt b] (.ok (.ofInt r)) ∧
      inRange q = true ∧ inRange r = true ∧
      a = q * b + r ∧ (r = 0 ∨ r.sign = b.sign) ∧ r.natAbs < b.natAbs) ∧
    (∃ r, (Site.mk act pc .neg).Computes [.ofInt a] r ∧ Exact r (-a)) ∧
    (∃ r, (Site.mk act pc .bitNot).Computes [.ofInt a] r ∧ Exact r (-a - 1)) := by
  have hab := inRange_iff.1 ha
  have hbb := inRange_iff.1 hb
  have hword : (Value.ofInt a).toInt = a := Value.toInt_ofInt (by simpa [inRange] using ha)
  refine ⟨fun op o n => computes_exact act pc ha hb, fun op hop => ?_, fun hb0 hq => ?_, ?_, ?_⟩
  · obtain ⟨o, ho, hdivision⟩ : ∃ o, Operator.ofOpcode? op = some o ∧ (o = .div ∨ o = .rem) := by
      rcases hop with rfl | rfl
      · exact ⟨.div, rfl, .inl rfl⟩
      · exact ⟨.rem, rfl, .inr rfl⟩
    by_cases hb0 : b = 0
    · refine ⟨_, computes_integers ha hb ho, iff_of_true ⟨.of .divisionByZero, ?_, rfl⟩ hb0⟩
      subst hb0
      rcases hdivision with rfl | rfl <;> rfl
    · obtain ⟨n, hn⟩ : ∃ n, o.exact? a b = some n := by
        rcases hdivision with rfl | rfl
        · exact ⟨_, if_neg hb0⟩
        · exact ⟨_, if_neg hb0⟩
      obtain ⟨r, hr, hexact⟩ := computes_exact act pc ha hb ho hn
      refine ⟨r, hr, iff_of_false ?_ hb0⟩
      rintro ⟨f, rfl, hf⟩
      rw [hexact.kind_of_error] at hf
      cases hf
  · obtain ⟨_, hdiv, hquot⟩ := computes_exact act pc ha hb (rfl : Operator.ofOpcode? .div = some .div) (if_neg hb0)
    obtain ⟨_, hrem, hrest⟩ := computes_exact act pc ha hb (rfl : Operator.ofOpcode? .rem = some .rem) (if_neg hb0)
    have hlt := natAbs_fmod_lt a hb0
    have hr : inRange (a.fmod b) = true := inRange_iff.2 (by omega)
    rw [hquot.of_inRange hq] at hdiv
    rw [hrest.of_inRange hr] at hrem
    refine ⟨_, _, hdiv, hrem, hq, hr, ?_, fmod_sign a hb0, hlt⟩
    rw [Int.mul_comm, Int.mul_fdiv_add_fmod]
  · refine ⟨_, Site.computes_negative rfl (Value.isFixnum_ofInt a), ?_⟩
    rw [hword]
    have h := exact_negate (x := .ofInt a) (by rwa [toInt_word ha])
    rwa [toInt_word ha] at h
  · refine ⟨_, Site.computes_complement rfl (Value.isFixnum_ofInt a), ?_⟩
    rw [complement_eq, hword, toInt_word ha, Exact, if_pos (inRange_iff.2 (by omega))]

/-- Minus seven divided by two: the quotient is rounded down. -/
theorem integers_minusSevenByTwo :
    let act : Activation := ⟨⟨1⟩, { name := ⟨1⟩, kind := .other }, 0, false, none, 0⟩
    inRange (-7) = true ∧ inRange 2 = true ∧
      (Site.mk act 0 .div).Computes [.ofInt (-7), .ofInt 2] (.ok (.ofInt (-4))) ∧
      (Site.mk act 0 .rem).Computes [.ofInt (-7), .ofInt 2] (.ok (.ofInt 1)) := by
  intro act
  have h := integers_exact act 0 (a := -7) (b := 2) (by decide) (by decide)
  obtain ⟨q, r, hdiv, hrem, -, -, hsum, hsign, hlt⟩ := h.2.2.1 (by decide) (by decide)
  have hr : r = 1 := by
    rcases hsign with h | h
    · omega
    · have := Int.sign_eq_one_iff_pos.1 h
      omega
  obtain rfl : q = -4 := by omega
  subst hr
  exact ⟨by decide, by decide, hdiv, hrem⟩

end RubyMachine
