import RubyMachine.Block
import RubyMachine.Proofs.Scope.Memory
import RubyMachine.Proofs.Value.Kinds

/-! Words for blocks: a block is what its word stands for if and only if function and frame fit (`ofWord_word_iff`). -/

namespace RubyMachine

namespace Value

theorem isBlock_ofBlock (fn : FnId) (frame : UInt64) : (ofBlock fn frame).isBlock = Bool.true := by
  rw [isBlock, hasTag, ofBlock, tag_tagged (show (quietNaN ||| blockTag).toNat = 2 ^ 48 * 0x7FFE by decide) (by decide)
    (payload_ofBlock_lt fn frame), beq_self_eq_true]

/-- Function and frame of a block share a word, which has 24 bits for each and drops what lies above. -/
theorem toBlock_ofBlock_mod (fn : FnId) (home : Nat) :
    (ofBlock fn (UInt64.ofNat home)).toBlock = (⟨UInt32.ofNat (fn.id.toNat % 2 ^ 24)⟩, home % 2 ^ 24) := by
  have hmask (x : UInt64) : (x &&& 0xFFFFFF).toNat = x.toNat % 2 ^ 24 := by
    rw [UInt64.toNat_and, show (0xFFFFFF : UInt64).toNat = 2 ^ 24 - 1 by decide, Nat.and_two_pow_sub_one_eq_mod]
  have hhigh : ((fn.id.toUInt64 &&& 0xFFFFFF) <<< 24).toNat = 2 ^ 24 * (fn.id.toNat % 2 ^ 24) := by
    rw [UInt64.toNat_shiftLeft, Nat.shiftLeft_eq, hmask, UInt32.toNat_toUInt64, show (24 : UInt64).toNat % 64 = 24 by decide]
    omega
  have hlow : (UInt64.ofNat home &&& 0xFFFFFF).toNat = home % 2 ^ 24 := by
    rw [hmask, UInt64.toNat_ofNat']
    omega
  have hpayload : (ofBlock fn (UInt64.ofNat home)).payload.toNat = 2 ^ 24 * (fn.id.toNat % 2 ^ 24) + home % 2 ^ 24 := by
    rw [ofBlock, payload_tagged (show (quietNaN ||| blockTag).toNat = 2 ^ 48 * 0x7FFE by decide)
      (payload_ofBlock_lt fn _), toNat_or_of_lt hhigh (by omega), hlow]
  refine Prod.ext (congrArg FnId.mk (UInt32.toNat.inj ?_)) ?_
  · show ((ofBlock fn (UInt64.ofNat home)).payload >>> 24).toUInt32.toNat = _
    rw [UInt64.toNat_toUInt32, UInt64.toNat_shiftRight, hpayload, show (24 : UInt64).toNat % 64 = 24 by decide,
      Nat.shiftRight_eq_div_pow, UInt32.toNat_ofNat']
    omega
  · show ((ofBlock fn (UInt64.ofNat home)).payload &&& 0xFFFFFF).toNat = _
    rw [hmask, hpayload]
    omega

theorem toBlock_ofBlock {fn : FnId} {home : Nat} (hfn : fn.id.toNat < 2 ^ 24) (hhome : home < 2 ^ 24) :
    (ofBlock fn (UInt64.ofNat home)).toBlock = (fn, home) := by
  rw [toBlock_ofBlock_mod, Nat.mod_eq_of_lt hfn, Nat.mod_eq_of_lt hhome, UInt32.ofNat_toNat]

/-- What is read from a word as function and frame fits into one. -/
theorem toBlock_lt (v : Value) : v.toBlock.1.id.toNat < 2 ^ 24 ∧ v.toBlock.2 < 2 ^ 24 := by
  have hp := payload_lt v
  constructor
  · show (v.payload >>> 24).toUInt32.toNat < _
    rw [UInt64.toNat_toUInt32, UInt64.toNat_shiftRight, show (24 : UInt64).toNat % 64 = 24 by decide,
      Nat.shiftRight_eq_div_pow]
    omega
  · show (v.payload &&& 0xFFFFFF).toNat < _
    rw [UInt64.toNat_and, show (0xFFFFFF : UInt64).toNat = 2 ^ 24 - 1 by decide, Nat.and_two_pow_sub_one_eq_mod]
    omega

end Value

namespace Block

variable {blk : Option Block}

/-- Blocks that a word can stand for. -/
inductive Encodable : Option Block → Prop
  | none : Encodable none
  | proc {v : Value} : v.isRef = true → Encodable (some (.proc v))
  | symbol (name : Ident) : Encodable (some (.symbol name))
  | literal {fn : FnId} {home : Nat} : fn.id.toNat < 2 ^ 24 → home < 2 ^ 24 → Encodable (some (.literal fn home))

theorem ofWord_of_isRef {v : Value} (h : v.isRef = true) : ofWord v = some (.proc v) := by
  rw [ofWord, Value.isBlock_of_isRef h, if_neg (by decide), if_pos h]

theorem ofWord_word (h : Encodable blk) : ofWord (word blk) = blk := by
  cases h with
  | none => rfl
  | proc hv => exact ofWord_of_isRef hv
  | symbol name =>
    have hs := Value.isSymbol_ofSymbol name
    rw [word, ofWord, show (Value.ofSymbol name).isBlock = false from Value.hasTag_of_ne hs (by decide), if_neg (by decide),
      Value.isRef_ofSymbol, if_neg (by decide), if_pos hs, Value.toSymbol_ofSymbol]
  | literal hfn hhome =>
    rw [word, ofWord, if_pos (Value.isBlock_ofBlock _ _), Value.toBlock_ofBlock hfn hhome]

/-- Only literal blocks have a word with their function and frame. -/
theorem Encodable.literal_of_isBlock (h : Encodable blk) (hb : (word blk).isBlock = true) :
    blk = some (.literal (word blk).toBlock.1 (word blk).toBlock.2) := by
  have hw := ofWord_word h
  rw [ofWord, if_pos hb] at hw
  exact hw.symm

/-- Every block that is read from a word has one. -/
theorem encodable_ofWord (v : Value) : Encodable (ofWord v) := by
  unfold ofWord
  split_ifs with hb hr hs
  · exact .literal v.toBlock_lt.1 v.toBlock_lt.2
  · exact .proc hr
  · exact .symbol _
  · exact .none

/-- A block comes out of its word as it went in if and only if there is a word for it. A literal block of a frame further up
than a word can say comes out as one of another frame. -/
theorem ofWord_word_iff : ofWord (word blk) = blk ↔ Encodable blk :=
  ⟨fun h => h ▸ encodable_ofWord (word blk), ofWord_word⟩

end Block

end RubyMachine
