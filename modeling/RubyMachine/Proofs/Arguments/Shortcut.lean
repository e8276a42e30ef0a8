import RubyMachine.Proofs.Arguments.Methods
import RubyMachine.Proofs.Arguments.Pictures

/-! The shortcut for callees with required parameters alone: cutting the stack back and letting it grow again leaves
what the general layout leaves, word for word (`shortcut_alike`). -/

namespace RubyMachine

open Exec Machine Code

/-! ## The general layout -/

/-- The words of `f` when the required arguments stay from `low` on, the other local slots are nil, and surplus
arguments are cleared. -/
def settled (f : Nat → Value) (low argc req n i : Nat) : Value :=
  if i < low + min argc req then f i else if i < low + n then .nil else if i < low + argc then .zero else f i

/-- Only required parameters are declared, and there is a slot for each. -/
structure Code.Sequence.Plain (seq : Sequence) (req : Nat) : Prop where
  simple : seq.params.isSimple = true
  required : seq.params.req = req
  fits : req ≤ seq.slotCount
  kwRest : seq.kwRestSlot = none
  delegate : seq.delegateSlot = none
  block : seq.blockSlot = none
  word : seq.slotCount < 2 ^ 63

/-- The callee's slots come up in the place of its arguments, if there is room for them. -/
structure Settles (x : Attempt Unit) (m : Machine) (low argc req n : Nat) : Prop where
  fits : low + n ≤ m.context.stack.capacity → ∃ m₁, x.run m = .ok (.ok ()) m₁ ∧
    m.Holds m₁ (low + n) (max m.context.stack.slots.size (low + n)) (settled m.slot low argc req n)
  overflows : m.context.stack.capacity < low + n → ∃ d m₁, x.run m = .error d m₁ ∧
    (low + n < 2 ^ 63 → d = .stackOverflow (low + n : Nat) m.context.stack.capacity)

/-- Two runs end with the same result in the same machine, or both with a defect, of which `P` says that it is the
same. -/
inductive Coincide {α : Type} (P : Prop) : EStateM.Result Defect Machine α → EStateM.Result Defect Machine α → Prop
  | ok (a : α) (m : Machine) : Coincide P (.ok a m) (.ok a m)
  | error {d d' : Defect} {m m' : Machine} : (P → d = d') → Coincide P (.error d m) (.error d' m')

theorem Coincide.of_eq {α : Type} {P : Prop} {x y : EStateM.Result Defect Machine α} (h : x = y) : Coincide P x y := by
  subst h
  cases x with
  | ok a m => exact .ok a m
  | error d m => exact .error fun _ => rfl

section

variable {m m₁ : Machine} {seq : Sequence} {low argc req n : Nat} {blk : Option Block} {x y : Attempt Unit}

theorem Settles.alike (hx : Settles x m low argc req n) (hy : Settles y m low argc req n) :
    Coincide (low + n < 2 ^ 63) (x.run m) (y.run m) := by
  rcases Nat.lt_or_ge m.context.stack.capacity (low + n) with hfull | hroom
  · obtain ⟨d, m₁, hrun, hd⟩ := hx.overflows hfull
    obtain ⟨d', m₂, hrun', hd'⟩ := hy.overflows hfull
    rw [hrun, hrun']
    exact .error fun h => (hd h).trans (hd' h).symm
  · obtain ⟨m₁, hrun, h₁⟩ := hx.fits hroom
    obtain ⟨m₂, hrun', h₂⟩ := hy.fits hroom
    rw [hrun, hrun', h₁.unique h₂]
    exact .ok _ m₂

namespace Code.Sequence.Plain

variable (hs : seq.Plain req)

include hs

theorem params_eq : seq.params.opt = 0 ∧ seq.params.post = 0 ∧ seq.params.rest = .none ∧ seq.params.keywords = [] ∧
    seq.params.delegate = false := by
  have h := hs.simple
  simp only [Params.isSimple, Bool.and_eq_true, beq_iff_eq, List.isEmpty_iff, Bool.not_eq_true'] at h
  obtain ⟨⟨⟨⟨⟨⟨ho, hr⟩, hp⟩, hk⟩, -⟩, -⟩, hd⟩ := h
  exact ⟨ho, hp, hr, hk, hd⟩

theorem least_eq : seq.params.least = req := by
  have := hs.fits
  have := hs.word
  rw [Params.least, hs.required, hs.params_eq.2.1, Params.sum_eq (by omega) (by omega), Int.add_zero]

theorem positional_eq : seq.params.positional = req := by
  have := hs.fits
  have := hs.word
  rw [Params.positional, hs.required, hs.params_eq.1, Params.sum_eq (by omega) (by omega), Int.add_zero]

theorem sum_positional {k : Int} (hk : k = 0) : Params.sum seq.params.positional k = req := by
  have := hs.fits
  have := hs.word
  rw [hk, hs.positional_eq, Params.sum_eq (by omega) (by omega), Int.add_zero]

theorem restSlots_eq : seq.params.restSlots = 0 := by
  rw [Params.restSlots, hs.params_eq.2.2.1]
  rfl

/-- As many arguments as there are parameters for come to lie in their slots. -/
theorem fillPositional_eq (args : List Value) (hc : low + seq.slotCount ≤ m.context.stack.capacity) :
    ∃ left, fillPositional seq.params ⟨low, seq.slotCount⟩ args m =
      .ok left (m.pokeAll low (args.take (min args.length req))) := by
  have hfits := hs.fits
  obtain ⟨-, hpost, -⟩ := hs.params_eq
  -- the trailing parameters are none, and so are the slots that are marked
  have hcopy (k : Nat) (hk : k ≤ req) : (Locals.mk low seq.slotCount).copy 0 k args m = .ok () (m.pokeAll low (args.take k)) := by
    exact copy_apply (i := 0) (Nat.zero_le k) (by omega)
  have hnone (m₁ : Machine) (hc₁ : m₁.context.stack.capacity = m.context.stack.capacity) (vs : List Value) :
      (Locals.mk low seq.slotCount).copy req (req + (0 : Int)) vs m₁ = .ok () m₁ := by
    rw [Int.add_zero, copy_apply le_rfl (by omega), Nat.sub_self, List.take_zero]
    rfl
  have hunset (m₁ : Machine) : (Locals.mk low seq.slotCount).unset req req m₁ = .ok () m₁ := by
    rw [Locals.unset, if_neg (by omega), Int.sub_self]
    rfl
  have hcap (vs : List Value) := capacity_pokeAll m low vs
  rw [fillPositional]
  dsimp only
  rw [hs.sum_positional hs.restSlots_eq, hs.sum_positional hpost, hs.positional_eq, hs.least_eq, hpost, hs.required]
  rcases Nat.lt_trichotomy args.length req with hlt | heq | hgt
  · have hmin : min (args.length : Int) (req : Int) = (args.length : Nat) := by omega
    rw [if_neg (by omega), if_neg (by omega), hmin, Nat.min_eq_left hlt.le, bind_of_ok (hcopy _ hlt.le),
      bind_of_ok (hunset _), bind_of_ok (hnone _ (hcap _) _)]
    exact ⟨_, rfl⟩
  · rw [if_neg (by omega), if_pos (by omega), heq, Nat.min_self, Int.sub_zero, bind_of_ok (hcopy _ le_rfl),
      bind_of_ok (hunset _), bind_of_ok (hnone _ (hcap _) _)]
    exact ⟨_, rfl⟩
  · rw [if_pos (by omega), Nat.min_eq_right hgt.le, bind_of_ok (hcopy _ le_rfl), bind_of_ok (hnone _ (hcap _) _)]
    exact ⟨_, rfl⟩

/-- The layout without the shortcut. -/
theorem fillParams_settles (hm : m.Passes low argc) :
    Settles (fillParams seq low argc .nil blk) m low argc req seq.slotCount := by
  have hsize := m.context.stack.len_le
  have hlen := hm.len
  have hfits := hs.fits
  let args := m.context.stack.words low argc
  have hargs : args.length = argc := Stack.length_words _ _ _ (by omega)
  have hstack : Exec.stack m = .ok m.context.stack m := rfl
  have hslice : (liftM (m.context.stack.slice low (low + argc)) : Exec (List Value)) m = .ok args m := by
    rw [Stack.slice, if_neg (by omega), show ((low : Int) + argc - low).toNat = argc by omega, Int.toNat_natCast]
    rfl
  obtain ⟨m₁, hcut, h₁⟩ := resize_cut (.refl m) (n := low) (by omega)
  obtain ⟨hroom, hfull⟩ := extend_cases h₁ (List.replicate seq.slotCount .nil)
  rw [List.length_replicate, ← grow_eq] at hroom hfull
  constructor
  · intro hr
    obtain ⟨m₂, hgrow, h₂⟩ := hroom hr
    have hroom₂ : low + seq.slotCount ≤ m₂.context.stack.capacity := by rw [h₂.stack.capacity]; exact hr
    obtain ⟨left, hfill⟩ := hs.fillPositional_eq args hroom₂
    have hrun : (fillParams seq low argc .nil blk).run m = .ok (.ok ()) (m₂.pokeAll low (args.take (min args.length req))) := by
      obtain ⟨-, -, hrest, hkeywords, -⟩ := hs.params_eq
      unfold fillParams
      refine (Attempt.run_lift_bind hstack).trans ((Attempt.run_lift_bind hslice).trans
        ((Attempt.run_lift_bind hcut).trans ((Attempt.run_lift_bind hgrow).trans ((Attempt.run_lift_bind hfill).trans ?_))))
      rw [if_neg (by rw [hrest]; decide), hs.delegate, hkeywords, fillKeywords_of_none hs.kwRest, hs.block]
      rfl
    refine ⟨_, hrun, (h₂.pokeAll ?_).congr fun i => ?_⟩
    · rw [List.length_take]
      omega
    · -- an argument that stays is a word of the stack as it was
      have harg (hi : i < low + args.length) (hl : low ≤ i) : args.getD (i - low) .nil = m.slot i := by
        rw [List.getD_eq_getElem?_getD, Stack.getElem?_words (by omega) (by omega), Option.getD_some,
          Nat.add_sub_cancel' hl]
        rfl
      rw [settled, ← hargs]
      rcases Nat.lt_or_ge i low with hlow | hlow
      · rw [overlay_of_lt hlow, overlay_of_lt hlow, if_neg (by omega), if_pos (by omega)]
      by_cases hkept : i < low + min args.length req
      · rw [if_pos hkept, ← harg (by omega) hlow, overlay, if_pos ⟨hlow, by rw [List.length_take]; omega⟩,
          List.getD_eq_getElem?_getD, List.getElem?_take_of_lt (by omega), ← List.getD_eq_getElem?_getD]
      rw [if_neg hkept, overlay_of_le (by rw [List.length_take]; omega)]
      by_cases hn : i < low + seq.slotCount
      · rw [if_pos hn, overlay_replicate hlow hn]
      · rw [if_neg hn, overlay_of_le (by rw [List.length_replicate]; omega)]
        exact if_congr (by omega) rfl rfl
  · intro hf
    refine ⟨_, m₁, ?_, fun _ => rfl⟩
    unfold fillParams
    exact (Attempt.run_lift_bind hstack).trans ((Attempt.run_lift_bind hslice).trans
      ((Attempt.run_lift_bind hcut).trans (Attempt.run_lift_bind_error (hfull hf))))

end Code.Sequence.Plain

/-! ## The shortcut -/

/-- The stack grows from the last argument that is kept to the last local slot. -/
theorem resize_settles (hm : m.Passes low argc) (hfits : req ≤ n) (hn : n < 2 ^ 63) :
    Settles (do
      (resize (low + min argc req : Nat) : Exec Unit)
      (resize (Params.sum low n) : Exec Unit)) m low argc req n := by
  have hlen := hm.len
  have hsize := m.context.stack.len_le
  obtain ⟨m₁, hcut, h₁⟩ := resize_cut (.refl m) (n := low + min argc req) (by omega)
  by_cases hword : low + n < 2 ^ 63
  · have hsum : Params.sum low n = (low + n : Nat) := by
      rw [Params.sum_eq (by omega) (by omega), Nat.cast_add]
    obtain ⟨hroom, hfull⟩ := resize_cases h₁ (n := low + n) (by omega) (by omega) (by have := hm.room; omega)
    rw [hsum]
    constructor
    · intro hr
      obtain ⟨m₂, hgrow, h₂⟩ := hroom hr
      refine ⟨m₂, (Attempt.run_lift_bind hcut).trans (Attempt.run_lift hgrow), h₂.congr fun i => ?_⟩
      rw [settled]
      by_cases hkept : i < low + min argc req
      · rw [if_pos hkept, overlay_of_lt hkept, if_neg (by omega)]
      rw [if_neg hkept]
      by_cases hi : i < low + n
      · rw [if_pos hi, overlay_replicate (by omega) (by omega)]
      · rw [if_neg hi, overlay_of_le (by rw [List.length_replicate]; omega)]
        exact if_congr (by omega) rfl rfl
    · intro hf
      exact ⟨_, m₁, (Attempt.run_lift_bind hcut).trans (Attempt.run_lift_error (hfull hf)), fun _ => rfl⟩
  · -- the end of the slots cannot be counted, and comes out negative
    have hneg : Params.sum low n < 0 := by
      have := hm.small
      have := hm.room
      rw [Params.sum, Number.wrap, Number.wordCount, Int.bmod_def]
      omega
    have hlength : resize (Params.sum low n) m₁ = .error (.stackLength (Params.sum low n)) m₁ := by
      rw [resize, bind_of_ok (show Exec.stack m₁ = .ok m₁.context.stack m₁ from rfl), if_pos hneg]
      rfl
    constructor
    · intro hr
      have := hm.small
      omega
    · exact fun _ => ⟨_, m₁, (Attempt.run_lift_bind hcut).trans (Attempt.run_lift_error hlength), fun h => absurd h hword⟩

/-- Binding the arguments of a method by the general layout, whatever its parameters are. -/
def layMethod (seq : Sequence) (low argc : Int) (kw : Value) (blk : Option Block) : Attempt Unit := do
  let p := seq.params
  let (argc, kw) ← foldKeywords p argc kw
  let least := p.least
  if p.rest ≠ .none ∨ p.delegate then
    if argc < least then Attempt.fail (.argumentMin argc least)
  else if argc < least ∨ argc > Params.sum least p.opt then
    Attempt.fail (.argumentsBetween argc least (Params.sum least p.opt))
  fillParams seq low argc kw blk

/-- Binding the arguments of a block by the general layout. -/
def layBlock (seq : Sequence) (low argc : Int) (kw : Value) (blk : Option Block) : Attempt Unit := do
  let argc ← spreadArray seq.params low argc kw
  let (argc, kw) ← foldKeywords seq.params argc kw
  fillParams seq low argc kw blk

theorem bindMethod_eq (seq : Sequence) (low argc : Int) (kw : Value) (blk : Option Block) :
    bindMethod seq low argc kw blk = if seq.params.isSimple && kw.isNil then do
        if argc ≠ seq.params.req then Attempt.fail (.argumentCount argc seq.params.req)
        resize (Params.sum low seq.slotCount)
      else layMethod seq low argc kw blk := rfl

theorem bindBlock_eq (seq : Sequence) (low argc : Int) (kw : Value) (blk : Option Block) :
    bindBlock seq low argc kw blk = (do
      let argc ← spreadArray seq.params low argc kw
      if seq.params.isSimple && kw.isNil then do
        resize (low + min argc seq.params.req)
        resize (Params.sum low seq.slotCount)
      else do
        let (argc, kw) ← foldKeywords seq.params argc kw
        fillParams seq low argc kw blk) := rfl

namespace Code.Sequence.Plain

variable (hs : seq.Plain req)

include hs

/-- Nothing is folded without keywords. -/
theorem layMethod_run : (layMethod seq low argc .nil blk).run m =
    if argc = req then (fillParams seq low argc .nil blk).run m
    else .ok (.error (Failure.of (.argumentCount argc req))) m := by
  obtain ⟨hopt, -, hrest, -, hdelegate⟩ := hs.params_eq
  have hfits := hs.fits
  have hword := hs.word
  have hfold : foldKeywords seq.params argc .nil m = .ok ((argc : Int), .nil) m := rfl
  have hmost : Params.sum req 0 = req := by rw [Params.sum_eq (by omega) (by omega), Int.add_zero]
  unfold layMethod
  refine (Attempt.run_lift_bind hfold).trans ?_
  dsimp only
  rw [if_neg (by rw [hrest, hdelegate]; decide), hs.least_eq, hopt, hmost]
  by_cases hn : argc = req
  · rw [if_neg (by omega), if_pos hn]
  · rw [if_pos (by omega), if_neg hn, Cause.argumentsBetween, if_pos rfl]
    rfl

theorem method_alike (hm : m.Passes low argc) : Coincide (low + seq.slotCount < 2 ^ 63)
    ((bindMethod seq low argc .nil blk).run m) ((layMethod seq low argc .nil blk).run m) := by
  have hlen := hm.len
  rw [bindMethod_eq, if_pos (by rw [hs.simple]; rfl), hs.required, hs.layMethod_run]
  by_cases hn : argc = req
  · -- cutting the stack at its own end does nothing
    have hstay : resize (low + min argc req : Nat) m = .ok () m := by
      obtain ⟨m₁, hrun, h₁⟩ := resize_cut (.refl m) (n := low + min argc req) (by omega)
      have hend : low + min argc req = m.context.stack.len := by omega
      rw [hend] at h₁
      rw [hrun, h₁.unique ((Machine.Holds.refl m).congr fun i => (if_neg (by omega)).symm)]
    have hsettles := resize_settles hm hs.fits hs.word
    have hgeneral : Settles (fillParams seq low argc .nil blk) m low argc req seq.slotCount := hs.fillParams_settles hm
    have halike := hsettles.alike hgeneral
    rw [Attempt.run_lift_bind hstay] at halike
    rw [if_neg (by omega), if_pos hn]
    exact halike
  · rw [if_pos (by omega), if_neg hn]
    exact .of_eq rfl

theorem layBlock_alike (hm : m.Passes low argc) (blk : Option Block) : Coincide (low + seq.slotCount < 2 ^ 63)
    ((do
      (resize (low + min argc req : Nat) : Exec Unit)
      (resize (Params.sum low seq.slotCount) : Exec Unit) : Attempt Unit).run m)
    ((do
      let (argc, kw) ← foldKeywords seq.params argc .nil
      fillParams seq low argc kw blk : Attempt Unit).run m) := by
  have hfold : foldKeywords seq.params argc .nil m = .ok ((argc : Int), .nil) m := rfl
  rw [Attempt.run_lift_bind hfold]
  exact (resize_settles hm hs.fits hs.word).alike (hs.fillParams_settles hm)

end Code.Sequence.Plain

/-- After an array was spread, its elements are the arguments. -/
theorem spreadArray_passes (hm : m.Passes low argc) (p : Params) (kw : Value) :
    (∃ (n : Nat) (m₁ : Machine), spreadArray p low argc kw m = .ok (n : Int) m₁ ∧ m₁.Passes low n) ∨
    ∃ d m₁, spreadArray p low argc kw m = .error d m₁ := by
  rw [spreadArray_eq hm]
  split
  · rcases asArray?_cases (m.slot low) m with hrun | ⟨elems, hrun, -⟩ | ⟨d, hrun⟩
    · exact .inl ⟨argc, m, bind_of_ok hrun, hm⟩
    · obtain ⟨hroom, hfull⟩ := spread_cases hm elems
      rw [bind_of_ok hrun]
      rcases Nat.lt_or_ge m.context.stack.capacity (low + elems.size) with hf | hr
      · exact .inr (hfull hf)
      · obtain ⟨m₁, hspread, h₁, -⟩ := hroom hr
        exact .inl ⟨elems.size, m₁, hspread, h₁⟩
    · exact .inr ⟨d, m, bind_of_error hrun⟩
  · exact .inl ⟨argc, m, rfl, hm⟩

theorem Code.Sequence.Plain.block_alike (hs : seq.Plain req) (hm : m.Passes low argc) :
    Coincide (low + seq.slotCount < 2 ^ 63) ((bindBlock seq low argc .nil blk).run m)
      ((layBlock seq low argc .nil blk).run m) := by
  rw [bindBlock_eq, layBlock]
  rcases spreadArray_passes hm seq.params .nil with ⟨n, m₁, hrun, h₁⟩ | ⟨d, m₁, hrun⟩
  · rw [Attempt.run_lift_bind hrun, Attempt.run_lift_bind hrun, if_pos (by rw [hs.simple]; rfl), hs.required]
    have halike := hs.layBlock_alike h₁ blk
    rwa [show ((low + min n req : Nat) : Int) = low + min (n : Int) req by omega] at halike
  · rw [Attempt.run_lift_bind_error hrun, Attempt.run_lift_bind_error hrun]
    exact .error fun _ => rfl

/-- For required parameters alone, the shortcut binds the arguments of methods and of blocks as the general layout
does: the same machine comes out, or the same failure. Where the stack is too small for the slots, both find it. -/
theorem shortcut_alike (hs : seq.Plain req) (hm : m.Passes low argc) (blk : Option Block) :
    Coincide (low + seq.slotCount < 2 ^ 63) ((bindMethod seq low argc .nil blk).run m)
      ((layMethod seq low argc .nil blk).run m) ∧
    Coincide (low + seq.slotCount < 2 ^ 63) ((bindBlock seq low argc .nil blk).run m)
      ((layBlock seq low argc .nil blk).run m) :=
  ⟨hs.method_alike hm, hs.block_alike hm⟩

end

/-- Two required parameters and a local variable. -/
def twoRequired : Sequence where
  name := ⟨1⟩
  kind := .block
  params := { req := 2 }
  slots := 3

/-- One argument is too few for a method, and leaves the second parameter of a block nil. -/
theorem shortcut_twoRequired : twoRequired.Plain 2 ∧ (Machine.twoFrames.pushed .true).Passes 21 1 ∧
    Coincide (21 + 3 < 2 ^ 63) ((bindMethod twoRequired 21 1 .nil none).run (Machine.twoFrames.pushed .true))
      ((layMethod twoRequired 21 1 .nil none).run (Machine.twoFrames.pushed .true)) ∧
    Coincide (21 + 3 < 2 ^ 63) ((bindBlock twoRequired 21 1 .nil none).run (Machine.twoFrames.pushed .true))
      ((layBlock twoRequired 21 1 .nil none).run (Machine.twoFrames.pushed .true)) := by
  have hs : twoRequired.Plain 2 := ⟨rfl, rfl, by decide, rfl, rfl, rfl, by decide⟩
  have hm : (Machine.twoFrames.pushed .true).Passes 21 1 := ⟨rfl, by decide, by decide⟩
  exact ⟨hs, hm, shortcut_alike hs hm none⟩

end RubyMachine
