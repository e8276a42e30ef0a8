import Mathlib.Data.List.GetD
import RubyMachine.Proofs.Arguments.Binding

/-! Methods bind their arguments exactly: a call is refused when the number of arguments is wrong, and otherwise every
argument comes to lie in its place (`bindMethod_exact`). -/

namespace RubyMachine

open Exec Machine Code

/-! ## Failures that count arguments -/

/-- The failure is about the number of arguments. -/
def Cause.isArity : Cause → Bool
  | .argumentCount .. | .argumentRange .. | .argumentMin .. => true
  | _ => false

theorem Cause.isArity_argumentsBetween (n low high : Int) : (argumentsBetween n low high).isArity = true := by
  unfold argumentsBetween
  split <;> rfl

/-- The attempt does not fail for the number of arguments. -/
def Attempt.Uncounted {α : Type} (x : Attempt α) : Prop :=
  ∀ m f m', x.run m = .ok (.error f) m' → f.cause.isArity = false

namespace Attempt.Uncounted

variable {α β : Type} {x : Attempt α} {f : α → Attempt β}

theorem pure (a : α) : (pure a : Attempt α).Uncounted := by
  intro m f m' h
  cases h

theorem lift (y : Exec α) : (liftM y : Attempt α).Uncounted := by
  intro m f m' h
  rw [ExceptT.run_liftM] at h
  obtain ⟨a, t, -, h⟩ := exists_of_bind h
  cases h

theorem fail {c : Cause} (h : c.isArity = false) : (Attempt.fail c : Attempt α).Uncounted := by
  intro m f m' hrun
  cases hrun
  exact h

theorem bind (hx : x.Uncounted) (hf : ∀ a, (f a).Uncounted) : (x >>= f).Uncounted := by
  intro m e m' h
  rw [ExceptT.run_bind] at h
  obtain ⟨r, t, hr, h⟩ := exists_of_bind h
  cases r with
  | ok a => exact hf a t e m' h
  | error e' =>
    cases h
    exact hx m _ _ hr

theorem forM {ι : Type} (l : List ι) {f : ι → Attempt PUnit} (hf : ∀ i, (f i).Uncounted) : (l.forM f).Uncounted := by
  rw [List.forM_eq_forM]
  induction l with
  | nil => exact .pure _
  | cons i l ih =>
    rw [List.forM_cons]
    exact .bind (hf i) fun _ => ih

end Attempt.Uncounted

theorem routeKeywords_uncounted (p : Params) (l : Locals) (rest : Option Value) (es : List (Value × Value)) :
    (routeKeywords p l rest es).Uncounted := by
  induction es with
  | nil => exact .pure _
  | cons e es ih =>
    obtain ⟨k, v⟩ := e
    unfold routeKeywords
    cases (if k.isSymbol = true then p.keywordSlot? k.toSymbol else none) with
    | some slot => exact .bind (.lift _) fun _ => ih
    | none =>
      cases rest with
      | some d => exact .bind (.lift _) fun _ => ih
      | none =>
        dsimp only
        split
        · exact .bind (.lift _) fun _ => .bind (.fail rfl) fun _ => ih
        · exact ih

theorem fillParams_uncounted (seq : Sequence) (low argc : Int) (kw : Value) (blk : Option Block) :
    (fillParams seq low argc kw blk).Uncounted := by
  have hkeywords (l : Locals) : (fillKeywords seq l kw).Uncounted := by
    have hroute (rest : Option Value) : (passKeywords seq.params l rest kw).Uncounted := by
      unfold passKeywords
      split
      · refine .bind (.lift _) fun d => ?_
        cases d with
        | some d => exact routeKeywords_uncounted _ _ _ _
        | none => exact .fail rfl
      · exact .pure _
    cases hs : seq.kwRestSlot with
    | none =>
      rw [fillKeywords_of_none hs]
      exact hroute none
    | some s =>
      rw [fillKeywords_of_some hs]
      exact .bind (.lift _) fun d => .bind (.lift _) fun _ => hroute (some d)
  have hlast (l : Locals) (vs : List Value) : Attempt.Uncounted (do
      l.setOptional seq.delegateSlot do newArray [← newArray vs, kw]
      seq.params.keywords.forM fun k => l.set k.slot.toNat .uninit
      fillKeywords seq l kw
      l.setOptional seq.blockSlot (blockToProc blk)) :=
    .bind (.lift _) fun _ => .bind (.forM _ fun _ => .lift _) fun _ => .bind (hkeywords l) fun _ => .lift _
  unfold fillParams
  refine .bind (.lift _) fun _ => .bind (.lift _) fun _ => .bind (.lift _) fun _ => .bind (.lift _) fun _ =>
    .bind (.lift _) fun vs => ?_
  dsimp only
  split
  · exact .bind (.lift _) fun _ => .bind (.lift _) fun _ => hlast _ vs
  · exact hlast _ vs

/-! ## Keywords for a callee that declares none -/

namespace Code.Params

/-- The positional arguments as the callee sees them: keywords are one of them if it declares none. -/
def argv (p : Params) (args : List Value) (kw : Value) : List Value :=
  if kw.isNil || p.hasKeywords || p.delegate then args else args ++ [kw]

/-- The callee does not take so many positional arguments. -/
def Miscounts (p : Params) (req opt post n : Nat) : Prop :=
  n < req + post ∨ req + opt + post < n ∧ p.rest = .none ∧ p.delegate = false

/-- Keywords with these entries find a place. -/
def Accepts (p : Params) (es : List (Value × Value)) : Prop :=
  p.hasKeywords = true → p.kwRest = true ∨ p.delegate = true ∨ ∀ e ∈ es, (p.slotFor? e.1).isSome = true

end Code.Params

variable {m m₁ m₂ : Machine} {seq : Sequence} {req opt post low : Nat} {args : List Value} {kw : Value}
  {es : List (Value × Value)} {blk : Option Block} {fs : List Nat}

/-- Where binding goes on after keywords were folded: from there it leads to what it would lead to from the start. -/
structure Folded (seq : Sequence) (req opt post low : Nat) (args : List Value) (kw : Value)
    (es : List (Value × Value)) (blk : Option Block) (fs : List Nat) (m m₁ : Machine) (kw₁ : Value)
    (es₁ : List (Value × Value)) : Prop where
  called : Called m₁ seq low (seq.params.argv args kw)
  keywords : Keywords m₁ kw₁ es₁
  block : seq.blockSlot.isSome = true → BlockBelow m₁ fs low blk
  accepted : seq.params.Accepts es → ∀ e ∈ es₁, (seq.params.slotFor? e.1).isSome = true ∨
    seq.kwRestSlot.isSome = true ∨ seq.params.delegate = true
  bound : ∀ m₂, Bound seq req opt post low (seq.params.argv args kw) kw₁ es₁ blk fs m₁ m₂ →
    Bound seq req opt post low (seq.params.argv args kw) kw es blk fs m m₂
  heap : m₁.heap = m.heap

/-- Nothing that is declared for keywords is there. -/
theorem Code.Sequence.Regular.keywordless (hs : seq.Regular req opt post) (h : seq.params.hasKeywords = false) :
    seq.params.keywords = [] ∧ seq.kwRestSlot = none := by
  rw [Params.hasKeywords, Bool.or_eq_false_iff, Bool.not_eq_false', List.isEmpty_iff] at h
  exact ⟨h.1, Option.isNone_iff_eq_none.1 (by rw [← Option.not_isSome, ← hs.kwRest, h.2]; rfl)⟩

/-- The machine with one more word on its stack. -/
def Machine.pushed (m : Machine) (v : Value) : Machine := { m with context.stack := m.context.stack.append v }

theorem Machine.Lays.pushed {size : Nat} (h : Lays m m₁ low size f) (v : Value) :
    Lays m (m₁.pushed v) low (size + 1) (Function.update f size v) := by
  have hlen := h.len
  have hslot (i : Nat) : (m₁.pushed v).slot i = if i = m₁.context.stack.len then v else m₁.slot i := Stack.getD_store ..
  refine ⟨h.rest, ?_, h.capacity, fun i hi => ?_, fun i hi => ?_, h.inv, h.objects⟩
  · show m₁.context.stack.len + 1 = _
    omega
  · rw [hslot, if_neg (by omega), h.below i hi]
  · rw [hslot, Function.update_apply]
    by_cases he : i = size
    · rw [if_pos (by omega), if_pos he]
    · rw [if_neg (by omega), if_neg he, h.slot i (by omega)]

theorem Called.lays (hm : Called m seq low args) : Lays m m low args.length fun i => args.getD i .nil :=
  ⟨rfl, hm.len, rfl, fun _ _ => rfl, hm.slot, hm.heap, fun _ _ hr => hr⟩

theorem pushed_lays (hm : Called m seq low args) (v : Value) :
    Lays m (m.pushed v) low (args.length + 1) fun i => (args ++ [v]).getD i .nil := by
  refine (hm.lays.pushed v).congr fun i hlt => ?_
  rw [Function.update_apply]
  split_ifs with he
  · rw [he, List.getD_append_right _ _ _ _ le_rfl, Nat.sub_self]
    rfl
  · rw [List.getD_append _ _ _ _ (by omega)]

theorem folded_kept (hs : seq.Regular req opt post) (hm : Called m seq low args) (hkw : Keywords m kw es)
    (hb : seq.blockSlot.isSome = true → BlockBelow m fs low blk)
    (hfold : (kw.isNil || seq.params.hasKeywords || seq.params.delegate) = true) :
    foldKeywords seq.params args.length kw m = .ok ((seq.params.argv args kw).length, kw) m ∧
      Folded seq req opt post low args kw es blk fs m m kw es := by
  have hargv : seq.params.argv args kw = args := if_pos hfold
  refine ⟨?_, ?_, hkw, hb, fun hacc e he => ?_, fun _ h => h, rfl⟩
  · rw [foldKeywords, if_pos hfold, hargv]
    rfl
  · rwa [hargv]
  · cases hh : seq.params.hasKeywords with
    | true =>
      rcases hacc hh with h | h | h
      · exact .inr (.inl (hs.kwRest ▸ h))
      · exact .inr (.inr h)
      · exact .inl (h e he)
    | false =>
      rw [hh, Bool.or_false, Bool.or_eq_true] at hfold
      rcases hfold with h | h
      · rcases hkw.hash with ⟨-, rfl⟩ | ⟨href, -⟩
        · cases he
        · rw [Value.isNil_of_isRef href] at h
          cases h
      · exact .inr (.inr h)

theorem push_pushed (hm : Called m seq low args) (hroom : low + args.length + 1 ≤ m.context.stack.capacity) (v : Value) :
    push v m = .ok () (m.pushed v) := by
  have hlen := hm.len
  have hstack : Exec.stack m = .ok m.context.stack m := rfl
  rw [push, bind_of_ok hstack, bind_of_ok (check_apply (by omega))]
  rfl

theorem Called.pushed (hm : Called m seq low args) (v : Value) : Called (m.pushed v) seq low (args ++ [v]) := by
  have hlays := pushed_lays hm v
  refine ⟨hlays.inv, ?_, ?_, hm.room, hm.small⟩
  · rw [hlays.len, List.length_append, List.length_singleton]
  · rw [List.length_append, List.length_singleton]
    exact hlays.slot

/-- A callee without any parameter for keywords binds them as the last positional argument. -/
theorem Bound.of_pushed {argv : List Value} (hm : Called m seq low args) (hkeywords : seq.params.keywords = [])
    (hrest : seq.kwRestSlot = none) (hdelegate : seq.delegateSlot = none)
    (hb : seq.blockSlot.isSome = true → BlockBelow m fs low blk)
    (h : Bound seq req opt post low argv .nil [] blk fs (m.pushed kw) m₂) :
    Bound seq req opt post low argv kw es blk fs m m₂ :=
  have hlays := pushed_lays hm kw
  { rest := by
      show (m₂.withMemory (m.pushed kw)).withMemory m = m
      rw [h.rest]
      rfl
    len := h.len
    objects := h.objects
    below := fun i hi => by
      rw [← hlays.below i hi]
      refine (h.below i hi).imp_right fun ⟨hsome, hl, href, f, hf, he⟩ => ⟨hsome, hl, href, f, ?_, he⟩
      obtain ⟨fn, home, rfl⟩ := exists_of_isLiteral hl
      exact (hlays.codeFrame (hb hsome fn home rfl).2.2).1 hf
    required := h.required
    optional := h.optional
    named := fun hn => ⟨(h.named hn).isRef, (h.named hn).fresh, (h.named hn).read⟩
    trailing := h.trailing
    delegate := by
      rw [hdelegate]
      simp
    keywords := by
      rw [hkeywords]
      simp
    kwRest := by
      rw [hrest]
      simp
    block := h.block
    others := h.others }

theorem folded_pushed (hs : seq.Regular req opt post) (hm : Called m seq low args)
    (hb : seq.blockSlot.isSome = true → BlockBelow m fs low blk)
    (hroom : low + args.length + 1 ≤ m.context.stack.capacity)
    (hfold : ¬ (kw.isNil || seq.params.hasKeywords || seq.params.delegate) = true) :
    foldKeywords seq.params args.length kw m = .ok ((seq.params.argv args kw).length, .nil) (m.pushed kw) ∧
      Folded seq req opt post low args kw es blk fs m (m.pushed kw) .nil [] := by
  have hargv : seq.params.argv args kw = args ++ [kw] := if_neg hfold
  obtain ⟨⟨-, hh⟩, hd⟩ : (kw.isNil = false ∧ seq.params.hasKeywords = false) ∧ seq.params.delegate = false := by
    simpa using hfold
  obtain ⟨hk, hr⟩ := hs.keywordless hh
  have hds : seq.delegateSlot = none := by
    rw [← Option.isNone_iff_eq_none, ← Option.not_isSome, ← hs.delegate, hd]
    rfl
  refine ⟨?_, ?_, ⟨.inl ⟨rfl, rfl⟩, by simp⟩, fun hsome => (pushed_lays hm kw).blockBelow (hb hsome), ?_,
    fun _ => Bound.of_pushed hm hk hr hds hb, rfl⟩
  · rw [foldKeywords, if_neg hfold, bind_of_ok (push_pushed hm hroom kw), hargv, List.length_append, Nat.cast_add]
    rfl
  · rw [hargv]
    exact hm.pushed kw
  · intro hacc e he
    cases he

theorem foldKeywords_folded (hs : seq.Regular req opt post) (hm : Called m seq low args) (hkw : Keywords m kw es)
    (hb : seq.blockSlot.isSome = true → BlockBelow m fs low blk)
    (hroom : kw.isNil = false → low + args.length + 1 ≤ m.context.stack.capacity) : ∃ m₁ kw₁ es₁,
      foldKeywords seq.params args.length kw m = .ok ((seq.params.argv args kw).length, kw₁) m₁ ∧
      Folded seq req opt post low args kw es blk fs m m₁ kw₁ es₁ := by
  by_cases hfold : (kw.isNil || seq.params.hasKeywords || seq.params.delegate) = true
  · exact ⟨m, kw, es, folded_kept hs hm hkw hb hfold⟩
  · have hnil : kw.isNil = false := by
      simp only [Bool.or_eq_true, not_or, Bool.not_eq_true] at hfold
      exact hfold.1.1
    exact ⟨m.pushed kw, .nil, [], folded_pushed hs hm hb (hroom hnil) hfold⟩

/-! ## Methods -/

theorem Code.Sequence.Regular.plain (hs : seq.Regular req opt post) (h : seq.params.isSimple = true) :
    opt = 0 ∧ post = 0 ∧ seq.params.rest = .none ∧ seq.params.keywords = [] ∧ seq.kwRestSlot = none ∧
      seq.delegateSlot = none ∧ seq.blockSlot = none := by
  simp only [Params.isSimple, Bool.and_eq_true, beq_iff_eq, List.isEmpty_iff, Bool.not_eq_true', hs.optional,
    hs.trailing, hs.kwRest, hs.delegate, hs.block, Option.isSome_eq_false_iff, Option.isNone_iff_eq_none] at h
  obtain ⟨⟨⟨⟨⟨⟨ho, hr⟩, hp⟩, hk⟩, hkr⟩, hb⟩, hd⟩ := h
  exact ⟨by exact_mod_cast ho, by exact_mod_cast hp, hr, hk, hkr, hd, hb⟩

/-- Arguments for required parameters alone are in their places from the start. -/
theorem resize_bound (hs : seq.Regular req opt post) (hm : Called m seq low args) (h : seq.params.isSimple = true)
    (hn : args.length = req) : ∃ m₁, resize (Params.sum low seq.slotCount) m = .ok () m₁ ∧
      Bound seq req opt post low args kw es blk fs m m₁ := by
  obtain ⟨rfl, rfl, hr, hk, hkr, hd, hb⟩ := hs.plain h
  have hroom := hm.room
  have hsmall := hm.small
  have hfits := hs.fits
  have hlen := hm.len
  obtain ⟨m₁, hrun, h₁⟩ := resize_resized (m := m) (n := low + seq.slotCount) hroom
  have hsum : Params.sum low seq.slotCount = (low + seq.slotCount : Nat) := by
    rw [Params.sum_eq (by omega) (by omega), Nat.cast_add]
  refine ⟨m₁, hsum ▸ hrun, ?_⟩
  exact {
    rest := h₁.rest
    len := h₁.len
    objects := fun v o ho => h₁.heap ▸ ho
    below := fun i hi => .inl (by rw [h₁.slot i (by omega), if_pos (by omega)])
    required := fun i hi => by rw [h₁.slot _ (by omega), if_pos (by omega), hm.slot i (by omega)]
    optional := nofun
    named := fun hn => by
      rw [hr] at hn
      cases hn
    trailing := nofun
    delegate := by
      rw [hd]
      nofun
    keywords := by
      rw [hk]
      nofun
    kwRest := by
      rw [hkr]
      nofun
    block := by
      rw [hb]
      nofun
    others := fun i hi hge _ => by rw [h₁.slot _ (by omega), if_neg (by omega)] }

/-- A call is refused for the number of its arguments, or these are laid out. -/
theorem bindMethod_cases (hs : seq.Regular req opt post) (hm : Called m seq low args) (hkw : Keywords m kw es)
    (hb : seq.blockSlot.isSome = true → BlockBelow m fs low blk)
    (hroom : kw.isNil = false → low + args.length + 1 ≤ m.context.stack.capacity) :
    (seq.params.Miscounts req opt post (seq.params.argv args kw).length ∧ ∃ c m₁, c.isArity = true ∧
      (bindMethod seq low args.length kw blk).run m = .ok (.error (Failure.of c)) m₁) ∨
    ¬ seq.params.Miscounts req opt post (seq.params.argv args kw).length ∧
      ((∃ m₁, (bindMethod seq low args.length kw blk).run m = .ok (.ok ()) m₁ ∧
        Bound seq req opt post low (seq.params.argv args kw) kw es blk fs m m₁) ∨
      ∃ m₁ kw₁ es₁, Folded seq req opt post low args kw es blk fs m m₁ kw₁ es₁ ∧
        (bindMethod seq low args.length kw blk).run m =
          (fillParams seq low (seq.params.argv args kw).length kw₁ blk).run m₁) := by
  have hcounts := hs.counts (by have := hm.small; have := hm.room; omega)
  unfold bindMethod
  dsimp only
  by_cases hsimple : (seq.params.isSimple && kw.isNil) = true
  · rw [if_pos hsimple]
    obtain ⟨hplain, hnil⟩ := Bool.and_eq_true_iff.1 hsimple
    obtain ⟨rfl, rfl, hr, -, -, hd, -⟩ := hs.plain hplain
    have hargv : seq.params.argv args kw = args := if_pos (by rw [hnil]; rfl)
    have hdel : seq.params.delegate = false := by rw [hs.delegate, hd]; rfl
    rw [hargv, hs.required]
    by_cases hn : args.length = req
    · refine .inr ⟨fun hmis => ?_, .inl ?_⟩
      · rcases hmis with hmis | ⟨hmis, -⟩ <;> omega
      · obtain ⟨m₁, hrun, hbound⟩ : ∃ m₁, resize (Params.sum low seq.slotCount) m = .ok () m₁ ∧
            Bound seq req 0 0 low args kw es blk fs m m₁ := resize_bound hs hm hplain hn
        exact ⟨m₁, by rw [if_neg (by omega), Attempt.run_lift hrun], hbound⟩
    · refine .inl ⟨?_, .argumentCount args.length req, m, rfl, ?_⟩
      · rcases Nat.lt_or_gt_of_ne hn with hlt | hgt
        · exact .inl hlt
        · exact .inr ⟨hgt, hr, hdel⟩
      · rw [if_pos (by omega)]
        rfl
  · rw [if_neg hsimple]
    obtain ⟨m₁, kw₁, es₁, hrun, hfolded⟩ := foldKeywords_folded hs hm hkw hb hroom
    rw [Attempt.run_lift_bind hrun]
    dsimp only
    rw [hcounts.sum_least_opt, hcounts.least_eq]
    generalize hn : (seq.params.argv args kw).length = n at *
    by_cases hopen : seq.params.rest ≠ .none ∨ seq.params.delegate = true
    · rw [if_pos hopen]
      by_cases hfew : n < req + post
      · refine .inl ⟨.inl hfew, .argumentMin n (req + post : Nat), m₁, rfl, ?_⟩
        rw [if_pos (by omega)]
        rfl
      · refine .inr ⟨fun hmis => ?_, .inr ⟨m₁, kw₁, es₁, hfolded, by rw [if_neg (by omega)]⟩⟩
        rcases hmis with hmis | ⟨-, hr, hd⟩
        · exact hfew hmis
        · rcases hopen with hopen | hopen
          · exact hopen hr
          · rw [hd] at hopen
            cases hopen
    · rw [if_neg hopen]
      obtain ⟨hr, hd⟩ : seq.params.rest = .none ∧ seq.params.delegate = false := by
        rw [not_or, not_not, Bool.not_eq_true] at hopen
        exact hopen
      by_cases hmis : n < req + post ∨ req + opt + post < n
      · refine .inl ⟨hmis.imp_right fun h => ⟨h, hr, hd⟩, _, m₁, Cause.isArity_argumentsBetween n (req + post : Nat)
          (req + post + opt : Nat), ?_⟩
        rw [if_pos (by omega)]
        rfl
      · exact .inr ⟨fun h => hmis (h.imp_right And.left), .inr ⟨m₁, kw₁, es₁, hfolded, by rw [if_neg (by omega)]⟩⟩

/-- A call is refused for the number of its arguments exactly if there are too few for the parameters that must be
given, or too many and nothing takes the surplus. Otherwise, if its keywords find a place, every argument does, as long as
there is room on the heap for what is made of them. -/
theorem bindMethod_exact (hs : seq.Regular req opt post) (hm : Called m seq low args) (hkw : Keywords m kw es)
    (hb : seq.blockSlot.isSome = true → BlockBelow m fs low blk)
    (hroom : kw.isNil = false → low + args.length + 1 ≤ m.context.stack.capacity) :
    ((∃ f m₁, (bindMethod seq low args.length kw blk).run m = .ok (.error f) m₁ ∧ f.cause.isArity = true) ↔
      seq.params.Miscounts req opt post (seq.params.argv args kw).length) ∧
    (¬ seq.params.Miscounts req opt post (seq.params.argv args kw).length → seq.params.Accepts es →
      Attempt.Ends (bindMethod seq low args.length kw blk) m (m.heap.pages.size + 2 * fs.length + 5) fun _ m₁ =>
        Bound seq req opt post low (seq.params.argv args kw) kw es blk fs m m₁) := by
  rcases bindMethod_cases hs hm hkw hb hroom with ⟨hmis, c, m₁, hc, hrun⟩ | ⟨hmis, ⟨m₁, hrun, hbound⟩ | hfill⟩
  · exact ⟨⟨fun _ => hmis, fun _ => ⟨_, m₁, hrun, hc⟩⟩, fun h => absurd hmis h⟩
  · refine ⟨⟨fun ⟨f, m₂, hrun', _⟩ => ?_, fun h => absurd h hmis⟩, fun _ _ => .of_ok hrun ⟨(), rfl, hbound⟩⟩
    cases hrun.symm.trans hrun'
  · obtain ⟨m₁, kw₁, es₁, hfolded, hrun⟩ := hfill
    refine ⟨⟨fun ⟨f, m₂, hrun', hf⟩ => ?_, fun h => absurd h hmis⟩, fun _ hacc => ?_⟩
    · rw [fillParams_uncounted _ _ _ _ _ m₁ f m₂ (hrun ▸ hrun')] at hf
      cases hf
    · have henough : req + post ≤ (seq.params.argv args kw).length := Nat.le_of_not_lt fun h => hmis (.inl h)
      have hends := fillParams_ends hs hfolded.called henough hfolded.keywords hfolded.block (hfolded.accepted hacc)
      have hbound := hends.imp fun _ m₂ h => hfolded.bound m₂ h
      rwa [Attempt.Ends, Exec.Ends, ← hrun, hfolded.heap] at hbound

/-- A method with an optional parameter, a rest, a keyword, surplus keywords and a block after the one that must be
given. -/
def everyKind : Sequence where
  name := ⟨1⟩
  kind := .method
  params := { req := 1, opt := 1, rest := .named, keywords := [⟨⟨2⟩, 3⟩], kwRest := true, block := true }
  kwRestSlot := some 4
  blockSlot := some 5
  slots := 6

/-- One argument and a block are enough for it, and there is room for what is made of them. -/
theorem bindMethod_everyKind : everyKind.Regular 1 1 0 ∧ Called (twoFrames.pushed .true) everyKind 21 [.true] ∧
    BlockBelow (twoFrames.pushed .true) [13, 3] 21 (some (.literal ⟨1⟩ 13)) ∧
    ∃ u m₁, (bindMethod everyKind 21 1 .nil (some (.literal ⟨1⟩ 13))).run (twoFrames.pushed .true) = .ok (.ok u) m₁ ∧
      m₁.slot 21 = .true ∧ m₁.slot 22 = .uninit ∧ IsNew (twoFrames.pushed .true) m₁ (m₁.slot 23) (.array #[]) ∧
      m₁.slot 24 = .uninit ∧ Stands m₁ (some (.literal ⟨1⟩ 13)) (m₁.slot 26) := by
  have hregular : everyKind.Regular 1 1 0 :=
    ⟨rfl, rfl, rfl, by decide, by decide, by decide, rfl, rfl, rfl⟩
  have hbare : Called twoFrames everyKind 21 [] := ⟨Heap.inv_new 0 false, rfl, nofun, by decide, by decide⟩
  have hlays := pushed_lays hbare .true
  have hends : ∀ g ∈ [13, 3], twoFrames.frameEnd g ≤ 21 := by decide
  have hcalled : Called (twoFrames.pushed .true) everyKind 21 [.true] :=
    ⟨hlays.inv, rfl, hlays.slot, by decide, by decide⟩
  have hbelow : BlockBelow (twoFrames.pushed .true) [13, 3] 21 (some (.literal ⟨1⟩ 13)) := by
    intro fn home he
    cases he
    exact ⟨hlays.wellFormed hends wellFormed_twoFrames, ⟨by decide, by decide⟩, by decide⟩
  refine ⟨hregular, hcalled, hbelow, ?_⟩
  have hnone : Keywords (twoFrames.pushed .true) .nil [] := ⟨.inl ⟨rfl, rfl⟩, nofun⟩
  have hexact := bindMethod_exact hregular hcalled hnone (fun _ => hbelow) nofun
  have hends := hexact.2 (by rintro (h | ⟨-, h, -⟩) <;> revert h <;> decide) fun _ => .inl rfl
  obtain ⟨u, m₁, hrun, h⟩ := hends.exists_ok (by decide)
  exact ⟨u, m₁, hrun, h.required 0 (by decide), h.optional 0 (by decide), h.named rfl, h.keywords _ List.mem_cons_self,
    h.block _ rfl⟩

end RubyMachine
