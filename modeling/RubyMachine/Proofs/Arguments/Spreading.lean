import RubyMachine.Proofs.Arguments.Folding
import RubyMachine.Proofs.Arguments.Routing

/-! Blocks that take a single array apart. The array is spread if some positional parameter has to be given and there is
another one (`spreads_iff`); its elements are then laid out as the arguments of a call would be, once (`bindBlock_deals`). -/

namespace RubyMachine

open Exec Machine Code

variable {m : Machine} {seq : Sequence} {p : Params} {req opt post low : Nat} {args : List Value} {v : Value}

/-- More than one positional parameter is declared, counting a rest as one. -/
def Code.Params.Several (p : Params) (req opt post : Nat) : Prop := 1 < req + opt + post + if p.rest = .none then 0 else 1

instance (p : Params) (req opt post : Nat) : Decidable (p.Several req opt post) := inferInstanceAs (Decidable (1 < _))

/-- Parameters of which none has to be given are not told apart from a single one, however many they are. -/
theorem spreads_iff (h : p.Counts req opt post) : p.spreads = true ↔ p.Several req opt post ∧ 0 < req + post := by
  have hopt : (0 : Int) < p.opt ↔ 0 < opt := by rw [h.optional, Int.natCast_pos]
  simp only [Params.spreads, Params.Several, h.least_eq, Bool.or_eq_true, Bool.and_eq_true, decide_eq_true_eq, beq_iff_eq,
    bne_iff_ne, gt_iff_lt, hopt]
  by_cases hr : p.rest = .none
  · rw [if_pos hr]
    simp only [hr, ne_eq, not_true_eq_false, or_false]
    omega
  · rw [if_neg hr]
    simp only [hr, ne_eq, not_false_eq_true, or_true, and_true]
    omega

/-- What a single array is dealt as. -/
theorem dealt_array (h : p.Counts req opt post) {es : List Value} (he : m.elements? v = some es) :
    p.dealt m [v] .nil = if p.Several req opt post ∧ 0 < req + post then es else [v] := by
  rw [Params.dealt, he]
  refine if_congr ?_ rfl rfl
  rw [show Value.nil.isNil = true from rfl, Bool.and_true, spreads_iff h]

/-- Two optional parameters leave an array as it is. -/
example (he : m.elements? v = some [.true, .false]) : ({ opt := 2 } : Params).dealt m [v] .nil = [v] :=
  (dealt_array ⟨rfl, rfl, rfl, by decide⟩ he).trans (if_neg (by decide))

theorem spreadArray_passes_of_ok {m₁ : Machine} {argc n : Nat} {kw : Value} (hm : m.Passes low argc)
    (h : spreadArray p low argc kw m = .ok (n : Int) m₁) : m₁.Passes low n := by
  rcases spreadArray_passes hm p kw with ⟨n', m', h', hpasses⟩ | ⟨d, m', h'⟩
  · rw [h] at h'
    cases h'
    exact hpasses
  · cases h.symm.trans h'

/-- Without keywords a block's slots are what the general layout makes of the arguments that are dealt: of the elements of
a single array, if that is spread, or of the arguments as they are. An element that is an array itself stays one. -/
theorem bindBlock_deals (hs : seq.Regular req opt post) (hm : Called m seq low args)
    (hspread : Spreadable m seq low args .nil) (blk : Option Block) : ∃ m₁,
    Called m₁ seq low (seq.params.dealt m args .nil) ∧ m₁.heap = m.heap ∧
    Coincide True ((bindBlock seq low args.length .nil blk).run m)
      ((fillParams seq low (seq.params.dealt m args .nil).length .nil blk).run m₁) := by
  obtain ⟨m₁, hrun, hcalled, hlays, hheap⟩ := spreadArray_deals hm hspread
  refine ⟨m₁, hcalled, hheap, ?_⟩
  have hword : low + seq.slotCount < 2 ^ 63 := by
    have := hm.room
    have := hm.small
    omega
  generalize (seq.params.dealt m args .nil).length = n at hrun
  have hfold : foldKeywords seq.params n .nil m₁ = .ok ((n : Int), .nil) m₁ := rfl
  rw [bindBlock_eq, Attempt.run_lift_bind hrun]
  cases hsimple : seq.params.isSimple with
  | true =>
    have hplain := hs.plain_of_isSimple hsimple (by omega)
    have halike := hplain.layBlock_alike (spreadArray_passes_of_ok ⟨hm.len, hspread.room, hm.small⟩ hrun) blk
    rw [Attempt.run_lift_bind hfold] at halike
    rw [show ((low + min n req : Nat) : Int) = low + min (n : Int) req by omega, ← hplain.required] at halike
    exact halike.mono fun _ => hword
  | false =>
    rw [if_neg (by simp), Attempt.run_lift_bind hfold]
    exact .of_eq rfl

end RubyMachine
