import RubyMachine.Proofs.Arguments.Slots

/-! Where positional arguments come to lie: required ones first, trailing ones last, and optional ones in between
as far as arguments are left for them. -/

namespace RubyMachine

open Exec Machine

theorem Number.wrap_of_lt {n : Int} (h0 : 0 ≤ n) (h : n < 2 ^ 63) : Number.wrap n = n := by
  rw [Number.wrap, Number.wordCount, Int.bmod_eq_of_le] <;> omega

namespace Code.Params

variable {p : Params} {req opt post : Nat}

/-- The counts are numbers that can be added. -/
structure Counts (p : Params) (req opt post : Nat) : Prop where
  required : p.req = req
  optional : p.opt = opt
  trailing : p.post = post
  small : req + opt + post + 1 < 2 ^ 63

/-- How many slots the rest takes. -/
def restCount (p : Params) : Nat := if p.rest = .named then 1 else 0

theorem restCount_le (p : Params) : p.restCount ≤ 1 := by
  unfold restCount
  split <;> omega

theorem restSlots_eq (p : Params) : p.restSlots = p.restCount := by
  unfold restSlots restCount
  split <;> rfl

theorem sum_eq {a b : Int} (h0 : 0 ≤ a + b) (h : a + b < 2 ^ 63) : sum a b = a + b := Number.wrap_of_lt h0 h

namespace Counts

variable (h : p.Counts req opt post)

include h

theorem least_eq : p.least = (req + post : Nat) := by
  have := h.small
  rw [least, h.required, h.trailing, sum_eq (by omega) (by omega), Nat.cast_add]

theorem positional_eq : p.positional = (req + opt : Nat) := by
  have := h.small
  rw [positional, h.required, h.optional, sum_eq (by omega) (by omega), Nat.cast_add]

theorem sum_positional_post : sum p.positional p.post = (req + opt + post : Nat) := by
  have := h.small
  rw [h.positional_eq, h.trailing, sum_eq (by omega) (by omega)]
  exact (Nat.cast_add _ _).symm

theorem sum_positional_rest : sum p.positional p.restSlots = (req + opt + p.restCount : Nat) := by
  have := h.small
  have := p.restCount_le
  rw [h.positional_eq, p.restSlots_eq, sum_eq (by omega) (by omega)]
  exact (Nat.cast_add _ _).symm

theorem sum_least_opt : sum p.least p.opt = (req + post + opt : Nat) := by
  have := h.small
  rw [h.least_eq, h.optional, sum_eq (by omega) (by omega)]
  exact (Nat.cast_add _ _).symm

end Counts

end Code.Params

open Code

/-- The words `g` are the words `f` with the arguments in their places. -/
structure Positioned (p : Params) (req opt post : Nat) (args : List Value) (f g : Nat → Value) : Prop where
  required : ∀ i < req, g i = args.getD i .nil
  optional : ∀ i < opt, g (req + i) = if i < args.length - (req + post) then args.getD (req + i) .nil else .uninit
  trailing : ∀ i < post, g (req + opt + p.restCount + i) = args.getD (args.length - post + i) .nil
  rest : p.rest = .named → g (req + opt) = f (req + opt)
  others : ∀ i, req + opt + p.restCount + post ≤ i → g i = f i

/-- The arguments that are neither required nor optional nor trailing. -/
def excess (req opt post : Nat) (args : List Value) : List Value :=
  (args.drop (req + opt)).take (args.length - post - (req + opt))

variable {m m₁ : Machine} {low size req opt post : Nat} {f : Nat → Value} {p : Params} {args : List Value}

theorem excess_of_le (h : args.length ≤ req + opt + post) : excess req opt post args = [] := by
  rw [excess, Nat.sub_eq_zero_of_le (by omega), List.take_zero]

/-- The words after the positional arguments were laid over `f`. -/
def positions (p : Params) (req opt post : Nat) (args : List Value) (f : Nat → Value) : Nat → Value :=
  let given := min (args.length - post) (req + opt)
  overlay (overlay (overlay f 0 (args.take given)) given (List.replicate (req + opt - given) .uninit))
    (req + opt + p.restCount) (args.drop (args.length - post))

theorem positioned_positions (hn : req + post ≤ args.length) :
    Positioned p req opt post args f (positions p req opt post args f) := by
  have htake : (args.take (min (args.length - post) (req + opt))).length = min (args.length - post) (req + opt) := by
    rw [List.length_take]
    omega
  have hdrop : (args.drop (args.length - post)).length = post := by
    rw [List.length_drop]
    omega
  have arg {i : Nat} (hi : i < min (args.length - post) (req + opt)) :
      positions p req opt post args f i = args.getD i .nil := by
    rw [positions, overlay_of_lt (by omega), overlay_of_lt hi]
    rw [overlay_zero_mem (by omega), List.getD_eq_getElem?_getD, List.getElem?_take_of_lt hi, ← List.getD_eq_getElem?_getD]
  constructor
  · intro i hi
    exact arg (by omega)
  · intro i hi
    split_ifs with hg
    · exact arg (by omega)
    · rw [positions, overlay_of_lt (by omega), overlay_replicate (by omega) (by omega)]
  · intro i hi
    rw [positions, overlay_mem (by omega), List.getD_eq_getElem?_getD, List.getElem?_drop,
      ← List.getD_eq_getElem?_getD]
  · intro hr
    rw [positions, overlay_of_lt (by rw [Params.restCount, if_pos hr]; omega), overlay_of_le, overlay_of_le]
    · omega
    · rw [List.length_replicate]
      omega
  · intro i hi
    rw [positions, overlay_of_le (by omega), overlay_of_le, overlay_of_le]
    · omega
    · rw [List.length_replicate]
      omega

/-- Laying out positional arguments, when there are enough for those that must be given. -/
theorem fillPositional_lays (hp : p.Counts req opt post) (hn : req + post ≤ args.length)
    (hs : req + opt + p.restCount + post ≤ size) (hc : low + size ≤ m.context.stack.capacity)
    (h : Lays m m₁ low size f) : ∃ m₂, fillPositional p ⟨low, size⟩ args m₁ = .ok (excess req opt post args) m₂ ∧
      Lays m m₂ low size (positions p req opt post args f) ∧ m₂.heap = m₁.heap := by
  rw [← h.capacity] at hc
  let given := min (args.length - post) (req + opt)
  let m₃ := (m₁.pokeAll (low + 0) (args.take given)).pokeAll (low + given) (List.replicate (req + opt - given) .uninit)
  have hdrop : (args.drop (args.length - post)).length = post := by
    rw [List.length_drop]
    omega
  have hfirst : (Locals.mk low size).copy 0 (given : Nat) args m₁ = .ok () (m₁.pokeAll (low + 0) (args.take given)) :=
    copy_apply (Nat.zero_le given) (by omega)
  have hlast : (Locals.mk low size).copy (req + opt + p.restCount : Nat) ((req + opt + p.restCount + post : Nat))
      (args.drop (args.length - post)) m₃ =
      .ok () (m₃.pokeAll (low + (req + opt + p.restCount)) (args.drop (args.length - post))) := by
    rw [copy_apply (Nat.le_add_right _ post) (by rw [capacity_pokeAll, capacity_pokeAll]; omega),
      Nat.add_sub_cancel_left, List.take_of_length_le hdrop.le]
  refine ⟨m₃.pokeAll (low + (req + opt + p.restCount)) (args.drop (args.length - post)), ?_, ?_, ?_⟩
  · have hleft : (args.length : Int) - post = (args.length - post : Nat) := by omega
    rw [fillPositional]
    dsimp only
    rw [hp.sum_positional_post, hp.sum_positional_rest, hp.positional_eq, hp.least_eq, hp.trailing, hleft,
      ← Nat.cast_add, Int.toNat_natCast, Int.toNat_natCast]
    rcases Nat.lt_or_ge (req + opt + post) args.length with hmore | hfew
    · have hg : given = req + opt := by omega
      have hnone : m₃ = m₁.pokeAll (low + 0) (args.take given) := by
        simp only [m₃, hg, Nat.sub_self, List.replicate_zero, Machine.pokeAll]
      have hcount : ((args.length - post : Nat) - (req + opt : Nat) : Int).toNat = args.length - post - (req + opt) := by
        omega
      rw [← hnone, hg] at hfirst
      rw [if_pos (by omega), hcount, bind_of_ok hfirst, bind_of_ok hlast]
      rfl
    · have hg : given = args.length - post := by omega
      have hmid : (Locals.mk low size).unset (given : Nat) (req + opt : Nat) (m₁.pokeAll (low + 0) (args.take given)) =
          .ok () m₃ := unset_apply (by omega) (by rwa [capacity_pokeAll])
      rw [if_neg (by omega), if_pos (by omega), ← hg, bind_of_ok hfirst, bind_of_ok hmid, hg, bind_of_ok hlast,
        excess_of_le hfew]
      rfl
  · refine ((h.pokeAll ?_).pokeAll ?_).pokeAll ?_
    · rw [List.length_take]
      omega
    · rw [List.length_replicate]
      omega
    · omega
  · rw [heap_pokeAll, heap_pokeAll, heap_pokeAll]

/-- With fewer arguments the required parameters come first, then the trailing ones. -/
theorem fillPositional_few (hp : p.Counts req opt post) (hn : args.length < req + post)
    (hs : req + opt + p.restCount + post ≤ size) (hc : low + size ≤ m.context.stack.capacity)
    (h : Lays m m₁ low size f) : ∃ m₂ g, fillPositional p ⟨low, size⟩ args m₁ = .ok [] m₂ ∧
      Lays m m₂ low size g ∧ m₂.heap = m₁.heap := by
  rw [← h.capacity] at hc
  let given := min args.length req
  let m₂ := m₁.pokeAll (low + 0) (args.take given)
  let m₃ := m₂.pokeAll (low + req) (List.replicate opt .uninit)
  have hfirst : (Locals.mk low size).copy 0 (given : Nat) args m₁ = .ok () m₂ := copy_apply (Nat.zero_le given) (by omega)
  have hmid : (Locals.mk low size).unset (req : Nat) (req + opt : Nat) m₂ = .ok () m₃ := by
    rw [unset_apply (by omega) (by rwa [capacity_pokeAll]), Nat.add_sub_cancel_left]
  have hlast : (Locals.mk low size).copy (req + opt + p.restCount : Nat) ((req + opt + p.restCount + post : Nat))
      (args.drop given) m₃ = .ok () (m₃.pokeAll (low + (req + opt + p.restCount)) ((args.drop given).take post)) := by
    rw [copy_apply (Nat.le_add_right _ post) (by rw [capacity_pokeAll, capacity_pokeAll]; omega),
      Nat.add_sub_cancel_left]
  have h₂ : Lays m m₂ low size (overlay f 0 (args.take given)) := h.pokeAll (by rw [List.length_take]; omega)
  have h₃ := h₂.pokeAll (i := req) (by rw [List.length_replicate]; omega : req + (List.replicate opt .uninit).length ≤ size)
  have h₄ : Lays m (m₃.pokeAll (low + (req + opt + p.restCount)) ((args.drop given).take post)) low size _ :=
    h₃.pokeAll (by rw [List.length_take]; omega)
  refine ⟨_, _, ?_, h₄, ?_⟩
  · have hgiven : min (args.length : Int) (req : Nat) = (given : Nat) := by omega
    rw [fillPositional]
    dsimp only
    rw [hp.sum_positional_post, hp.sum_positional_rest, hp.positional_eq, hp.least_eq, hp.trailing, hp.required, hgiven,
      ← Nat.cast_add, if_neg (by omega), if_neg (by omega), bind_of_ok hfirst, bind_of_ok hmid, Int.toNat_natCast,
      bind_of_ok hlast]
    rfl
  · rw [heap_pokeAll, heap_pokeAll, heap_pokeAll]

end RubyMachine
