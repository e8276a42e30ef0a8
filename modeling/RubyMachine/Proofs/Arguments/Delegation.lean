import RubyMachine.Machine.Call
import RubyMachine.Proofs.Arguments.Carried
import RubyMachine.Proofs.Arguments.Methods
import RubyMachine.Proofs.Machine.Operators

/-! The call of a method that takes whatever it is given to pass it on: the arguments and the keywords are put away in a
hidden local, and the block in the method's frame (`invoke_starts`). -/

namespace RubyMachine

open Exec Machine Code

/-- A method whose only parameter is for what it passes on. -/
structure Code.Sequence.Delegates (seq : Sequence) (slot : UInt32) : Prop where
  params : seq.params = { delegate := true }
  delegate : seq.delegateSlot = some slot
  below : slot.toNat < seq.slotCount
  kwRest : seq.kwRestSlot = none
  block : seq.blockSlot = none

/-- Keywords: none, or those of a hash. -/
def Machine.HasKeywords (m : Machine) (kw : Value) : Prop :=
  kw.isNil = true ∨ kw.isRef = true ∧ ∃ d, m.heap.read kw.toRef = .ok (.dict d)

variable {m m₁ m₂ : Machine} {seq : Sequence} {slot : UInt32} {low size n : Nat} {f : Nat → Value} {args : List Value}
  {kw self : Value} {blk : Option Block} {fn : FnId}

theorem Machine.HasKeywords.kept (h : m.HasKeywords kw) (ho : m.KeepsObjects m₁) : m₁.HasKeywords kw := by
  rcases h with hnil | ⟨href, d, hd⟩
  · exact .inl hnil
  · exact .inr ⟨href, d, ho kw _ hd⟩

theorem Code.Sequence.Delegates.regular (h : seq.Delegates slot) : seq.Regular 0 0 0 := by
  have hspecials : seq.specials = [slot.toNat] := by
    rw [specials, keywordSlots, h.params, h.kwRest, h.delegate, h.block]
    rfl
  exact {
    required := congrArg Params.req h.params
    optional := congrArg Params.opt h.params
    trailing := congrArg Params.post h.params
    fits := by
      rw [h.params]
      exact Nat.zero_le _
    apart := by
      rw [hspecials]
      exact List.nodup_singleton _
    above := fun s hs => by
      rw [hspecials, List.mem_singleton] at hs
      rw [h.params, hs]
      exact ⟨Nat.zero_le _, h.below⟩
    kwRest := by
      rw [h.params, h.kwRest]
      rfl
    delegate := by
      rw [h.params, h.delegate]
      rfl
    block := by
      rw [h.params, h.block]
      rfl }

/-! ## Arguments -/

namespace Exec

/-- Keywords that are passed on find a place, whatever they are. -/
theorem routeKeywords_delegate {p : Params} {l : Locals} (hk : p.keywords = []) (hd : p.delegate = true)
    (es : List (Value × Value)) : routeKeywords p l none es = pure () := by
  induction es with
  | nil => rfl
  | cons e es ih =>
    have hslot : (if e.1.isSymbol then p.keywordSlot? e.1.toSymbol else none) = none := by
      rw [Params.keywordSlot?, hk]
      exact ite_self _
    rw [routeKeywords, hslot, ih, hd]
    rfl

/-- The arguments and the keywords come to lie in the hidden local. -/
theorem bindMethod_delegates (hs : seq.Delegates slot) (hm : Called m seq low args) (hkw : m.HasKeywords kw)
    (blk : Option Block) :
    Attempt.Ends (bindMethod seq low args.length kw blk) m (m.heap.pages.size + 3) fun _ m₁ =>
      ∃ f, Lays m m₁ low seq.slotCount f ∧ m₁.Packs (f slot.toNat) args kw := by
  have hp := hs.params
  have hfold : foldKeywords seq.params args.length kw m = .ok ((args.length : Int), kw) m := by
    rw [foldKeywords, hp, if_pos (by simp)]
    rfl
  have hroute (m' : Machine) (hk : m'.HasKeywords kw) :
      (fillKeywords seq ⟨low, seq.slotCount⟩ kw).run m' = .ok (.ok ()) m' := by
    rw [fillKeywords_of_none hs.kwRest, passKeywords]
    rcases hk with hn | ⟨href, d, hd⟩
    · rw [hn]
      rfl
    · rw [Value.isNil_of_isRef href]
      refine (Attempt.run_lift_bind (asDict?_apply href hd)).trans ?_
      show (routeKeywords seq.params ⟨low, seq.slotCount⟩ none d.toList).run m' = _
      rw [routeKeywords_delegate (by rw [hp]) (by rw [hp])]
      rfl
  have hfill : Attempt.Ends (fillParams seq low args.length kw blk) m (m.heap.pages.size + 3) fun _ m₁ =>
      ∃ f, Lays m m₁ low seq.slotCount f ∧ m₁.Packs (f slot.toNat) args kw := by
    refine (fillParams_enters (by omega) hs.regular hm).ends ?_
    rintro m₁ ⟨f, h₁⟩
    have hexcess : excess 0 0 0 args = args := by
      rw [excess, Nat.sub_zero]
      exact List.take_length
    rw [hexcess, fillSpecials]
    have hgrows := h₁.grows
    refine (Attempt.Ends.lift (delegate_ends (by omega) h₁.lays hm.room (fun s hd => ?_) args kw)).bind ?_
    · rw [hs.delegate] at hd
      cases hd
      exact hs.below
    rintro _ m₂ ⟨hk, -, v, h₂, hv⟩
    obtain ⟨u, hu, hv⟩ := hv (by rw [hs.delegate]; rfl)
    have hlocal : place seq.delegateSlot v f slot.toNat = v := place_self hs.delegate
    have hkw₂ : m₂.HasKeywords kw := hkw.kept h₂.objects
    refine .of_ok ?_ ⟨(), rfl, _, h₂, ?_⟩
    · rw [hp, hs.block]
      show (fillKeywords seq ⟨low, seq.slotCount⟩ kw >>= fun _ => pure ()).run m₂ = _
      exact Attempt.run_bind_ok (hroute m₂ hkw₂)
    · rw [hlocal]
      exact ⟨hv.isRef, u, hv.read, hu.isRef, hu.read⟩
  have hrun : (bindMethod seq low args.length kw blk).run m = (fillParams seq low args.length kw blk).run m := by
    have hsimple : ¬ (seq.params.isSimple && kw.isNil) = true := by
      rw [hp, show ({ delegate := true } : Params).isSimple = false from rfl, Bool.false_and]
      decide
    have hleast : ¬ (args.length : Int) < seq.params.least := by
      rw [hp, show ({ delegate := true } : Params).least = 0 from rfl]
      omega
    unfold bindMethod
    dsimp only
    rw [if_neg hsimple, Attempt.run_lift_bind hfold]
    dsimp only
    rw [if_pos (.inr (by rw [hp])), if_neg hleast]
  rwa [Attempt.Ends, Exec.Ends, hrun]

end Exec

/-! ## The frame -/

theorem Machine.Lays.push (h : Lays m m₁ low size f) (hroom : low + size < m.context.stack.capacity) (v : Value) :
    ∃ m₂, Exec.push v m₁ = .ok () m₂ ∧ Lays m m₂ low (size + 1) (Function.update f size v) ∧ m₂.heap = m₁.heap := by
  have hfree : m₁.context.stack.len < m₁.context.stack.capacity := by
    rw [h.len, h.capacity]
    exact hroom
  exact ⟨m₁.pushed v, push_apply v hfree, h.pushed v, rfl⟩

theorem Machine.Lays.pushAll (h : Lays m m₁ low size f) (vs : List Value)
    (hroom : low + size + vs.length ≤ m.context.stack.capacity) :
    ∃ m₂, vs.forM Exec.push m₁ = .ok () m₂ ∧ Lays m m₂ low (size + vs.length) (overlay f size vs) ∧
      m₂.heap = m₁.heap := by
  rw [List.forM_eq_forM]
  induction vs generalizing m₁ f size with
  | nil => exact ⟨m₁, rfl, by rwa [overlay_nil], rfl⟩
  | cons v vs ih =>
    rw [List.length_cons] at hroom
    obtain ⟨m₂, hrun, h₂, hh₂⟩ := h.push (by omega) v
    obtain ⟨m₃, hrun₃, h₃, hh₃⟩ := ih h₂ (by omega)
    refine ⟨m₃, ?_, ?_, hh₃.trans hh₂⟩
    · rw [List.forM_cons, bind_of_ok hrun, hrun₃]
    · rw [overlay_cons, Nat.add_right_comm] at h₃
      exact h₃

namespace Frame

/-- The flag word of a code frame says that it is one, and how many slots it has. -/
theorem flags_code (bits : UInt64) (hn : n < 2 ^ 38) (hb : bits.toNat = 0x80 ∨ bits.toNat = 0x90) :
    ∃ w, flags n bits = .ok w ∧ w.isFixnum = true ∧ w.slots = n ∧ (UInt64.ofInt w.toInt &&& codeFlag != 0) = true := by
  obtain ⟨k, hk, hlt⟩ : ∃ k, k = bits.toNat ∧ 0x80 ≤ k ∧ k < 0x100 := ⟨_, rfl, by omega⟩
  have hsum : (n : Int) * 256 + bits.toNat = (n * 256 + k : Nat) := by omega
  have hint : (Value.ofInt (n * 256 + k : Nat)).toInt = (n * 256 + k : Nat) :=
    Value.toInt_ofInt (by unfold Value.minFixnum Value.maxFixnum; omega)
  have hnat : (UInt64.ofInt (n * 256 + k : Nat)).toNat = n * 256 + k := toNat_ofInt (by omega)
  refine ⟨.ofInt (n * 256 + k : Nat), ?_, Value.isFixnum_ofInt _, ?_, ?_⟩
  · rw [flags, hsum, Value.fixnum, Value.ofInt?, if_neg]
    unfold Value.maxFixnum Value.minFixnum
    omega
  · rw [Value.slots, hint, UInt64.toNat_shiftRight, hnat, show (8 : UInt64).toNat % 64 = 8 by decide,
      Nat.shiftRight_eq_div_pow]
    omega
  · have hbit : (n * 256 + k).testBit 7 = true := by
      rw [Nat.testBit_eq_decide_div_mod_eq, decide_eq_true_iff]
      omega
    rw [hint, bne_iff_ne]
    intro hzero
    have hand := congrArg UInt64.toNat hzero
    rw [UInt64.toNat_and, hnat] at hand
    have := congrArg (Nat.testBit · 7) hand
    simp only [Nat.testBit_and, hbit] at this
    exact absurd this (by decide)

end Frame

/-- The computation comes to `y` in a machine of which `P` is true, unless the heap is full before it has `n` pages. -/
def Exec.Reaches {α : Type} (x : Exec α) (m : Machine) (y : Exec α) (n : Nat) (P : Machine → Prop) : Prop :=
  (∃ m', x m = y m' ∧ P m') ∨
    ∃ m', x m = .error (.heapExhausted m'.heap.pages.size) m' ∧ Heap.maxPages ≤ m'.heap.pages.size ∧ m'.heap.pages.size < n

/-- With room on the heap the computation does come to `y`. -/
theorem Exec.Reaches.exists_run {α : Type} {x y : Exec α} {m : Machine} {n : Nat} {P : Machine → Prop}
    (hx : x.Reaches m y n P) (hn : n ≤ Heap.maxPages) : ∃ m', x m = y m' ∧ P m' :=
  hx.resolve_right fun ⟨_, _, hfull, hlt⟩ => absurd (hlt.trans_le hn) (Nat.not_lt.2 hfull)

namespace Machine

/-- What a method runs as whose arguments lay from slot `low` on. -/
def entering (m : Machine) (fn : FnId) (seq : Sequence) (low : Nat) : Activation where
  fn := fn
  seq := seq
  frame := low + seq.slotCount + 1
  asBlock := false
  caller := m.context.frame
  height := low - 1

/-- The control words of the frame at slot `f` of a method, with the word `w` for its flags. -/
def methodWords (m : Machine) (fn : FnId) (f : Nat) (w : Value) (blk : Option Block) : List Value :=
  [(m.context.frame.map Value.frameAt).getD .nil, .frameAt f, w, .frameAt f, .nil, .ofInt 0, .ofInt fn.id.toNat,
    Block.word blk]

variable {w : Value} {g : Nat → Value}

/-- A frame that was pushed above the local slots carries what is in one of them. -/
theorem Lays.carries (h : Lays m m₁ low (n + 1 + 8) (overlay g (n + 1) (m.methodWords fn (low + n + 1) w blk)))
    (hs : size < n) (hcapacity : low + n + 9 ≤ m.context.stack.capacity) (hsmall : m.context.stack.capacity < 2 ^ 38)
    (hfix : w.isFixnum = true) (hslots : w.slots = n) (hcode : (UInt64.ofInt w.toInt &&& Frame.codeFlag != 0) = true)
    (hp : m₁.Packs (g size) args kw) : m₁.Carries (.stack (low + n + 1)) fn size args kw (Block.word blk) := by
  have hword (k : Nat) (hk : k < 8) :
      m₁.slot (low + n + 1 + k) = (m.methodWords fn (low + n + 1) w blk).getD k .nil := by
    rw [Nat.add_assoc low, Nat.add_assoc low, h.slot (n + 1 + k) (by omega)]
    exact overlay_mem hk
  have hflags : m₁.slot (low + n + 1 + 2) = w := hword 2 (by decide)
  have hcount : m₁.slotsAt (low + n + 1) = n := by rw [slotsAt, hflags, hslots]
  have hc : m₁.isCode (low + n + 1) = true := by rw [isCode, hflags, hcode]
  have hplaced : m₁.Placed (low + n + 1) := by
    refine ⟨by rw [hflags, hfix], by rw [hcount]; omega, ?_⟩
    rw [frameEnd_code hc, h.capacity]
    omega
  have hlocal : m₁.localOf (.stack (low + n + 1)) size = g size := by
    rw [localOf, hcount, show low + n + 1 - n - 1 + size = low + size by omega, h.slot size (by omega),
      overlay_of_lt (by omega)]
  refine ⟨h.inv, .stack hplaced hc (Value.toFrame_frameAt (by omega)) ?_ ?_, ?_, hword 3 (by decide), hword 6 (by decide),
    hword 7 (by decide), ?_, ?_⟩
  · rw [hword 1 (by decide)]
    exact Value.isRef_of_isFrame (Value.isFrame_frameAt _)
  · rw [h.len]
    omega
  · rw [wordOf, hword 4 (by decide)]
    rfl
  · rw [slotsOf, wordOf, hflags, hslots]
    exact hs
  · rw [hlocal]
    exact hp

/-- A method has started: its frame is the top of the stack and carries what the method was called with. -/
structure Starts (m m₁ : Machine) (fn : FnId) (seq : Sequence) (slot : UInt32) (low : Nat) (args : List Value) (kw : Value)
    (blk : Option Block) : Prop where
  carries : m₁.Carries (.stack (low + seq.slotCount + 1)) fn slot.toNat args kw (Block.word blk)
  frame : m₁.context.frame = some (low + seq.slotCount + 1)
  len : m₁.context.stack.len = low + seq.slotCount + 9
  capacity : m₁.context.stack.capacity = m.context.stack.capacity
  functions : m₁.functions = m.functions

end Machine

namespace Exec

/-- A method that is called with arguments, keywords and a block starts with all of them in its frame. It takes three
pages at most. -/
theorem invoke_starts (fn : FnId) (self : Value) (blk : Option Block) (hs : seq.Delegates slot)
    (hm : Called m seq low args) (hkw : m.HasKeywords kw)
    (hroom : low + seq.slotCount + 9 ≤ m.context.stack.capacity) (hsmall : m.context.stack.capacity < 2 ^ 38) :
    (invoke fn seq self low args.length kw blk .nil false).Reaches m (do
        safepoint
        return .exec (m.entering fn seq low) 0) (m.heap.pages.size + 3)
      fun m₁ => m.Starts m₁ fn seq slot low args kw blk := by
  rcases bindMethod_delegates hs hm hkw blk with ⟨r, m₁, hbind, u, rfl, f, h₁, hpacks⟩ | ⟨m₁, hbind, hfull⟩
  swap
  · exact .inr ⟨m₁, bind_of_error hbind, hfull⟩
  obtain ⟨w, hflags, hfix, hslots, hcode⟩ := Frame.flags_code (n := seq.slotCount)
    (Frame.codeFlag + if !false && seq.kind == .block then Frame.lambdaFlag else 0) (by omega) (by split <;> decide)
  have hcaller : m₁.context.frame = m.context.frame := by
    rw [← h₁.rest]
    rfl
  obtain ⟨m₂, hself, h₂, hh₂⟩ := h₁.push (by omega) self
  obtain ⟨m₃, hwords, h₃, hh₃⟩ := h₂.pushAll (m.methodWords fn (low + seq.slotCount + 1) w blk) (by
    show low + (seq.slotCount + 1) + 8 ≤ _
    omega)
  have hpacks₃ : m₃.Packs (Function.update f seq.slotCount self slot.toNat) args kw := by
    rw [Function.update_of_ne hs.below.ne]
    exact hpacks.kept fun _ _ hread _ => by rwa [hh₃, hh₂]
  have h := h₃.carries hs.below hroom hsmall hfix hslots hcode hpacks₃
  refine .inl ⟨{ m₃ with context.frame := some (low + seq.slotCount + 1) }, ?_, ?_, rfl, h₃.len, h₃.capacity, ?_⟩
  · have hcallerWord : frameValue m₁ = .ok ((m.context.frame.map Value.frameAt).getD .nil) m₁ := by
      rw [← hcaller]
      rfl
    have hlen : Exec.stack m₂ = .ok m₂.context.stack m₂ := rfl
    have hlen₂ : m₂.context.stack.len = low + seq.slotCount + 1 := h₂.len
    unfold invoke
    refine (bind_of_ok hbind).trans ?_
    refine (bind_of_ok (show frame? m₁ = .ok m.context.frame m₁ from hcaller ▸ rfl)).trans ?_
    refine (bind_of_ok hcallerWord).trans ((bind_of_ok hself).trans ((bind_of_ok hlen).trans ?_))
    rw [hlen₂, if_pos (by decide), pure_bind]
    dsimp only
    rw [hflags, show (liftM (Except.ok w : Except Defect Value) : Exec Value) = pure w from rfl, pure_bind]
    have hrest := bind_of_ok (f := fun _ => (do
      setFrame (some (low + seq.slotCount + 1))
      safepoint
      return .exec (m.entering fn seq low) 0 : Exec Control)) hwords
    rw [List.forM_eq_forM, methodWords] at hrest
    simp only [List.forM_cons, List.forM_nil, bind_assoc, pure_bind] at hrest
    exact hrest
  · have hlen : low + seq.slotCount + 1 + 8 ≤ m₃.context.stack.len := h₃.len.ge
    refine h.spared (.of_kept h.live h.fits (.of_frame hlen rfl ?_ rfl) (fun _ _ hread _ => hread) h.inv)
    exact fun _ _ _ _ => rfl
  · show m₃.functions = m.functions
    rw [← h₃.rest]
    rfl

end Exec

end RubyMachine
