import RubyMachine.Proofs.Arguments.Delegation
import RubyMachine.Proofs.Arguments.Pictures
import RubyMachine.Proofs.Value.Blocks

/-! Arguments that are passed on: a send that asks for them finds what the method around it was called with, however far
out that is, and calls with just that (`forwarding_exact`). -/

namespace RubyMachine

open Exec Machine Code

/-- A site that has no arguments of its own and passes on those of the method around it. -/
structure SendSite.Forwards (site : SendSite) : Prop where
  argc : site.argc = 0
  flags : site.flags = ArgFlag.delegate
  block : site.block.id = 0

/-- The call of a site, once its arguments lie on the stack from slot `base` on, above the receiver. -/
def Exec.callSite (a : Activation) (site : SendSite) (base argc : Int) (kw : Value) (blk : Option Block) :
    Attempt Control := do
  let receiver ← (← stack).get (base - 1)
  match ← findMethodAt? a.fn site.cache (← classOf receiver) site.name with
  | none => throw (← noMethod site.name receiver)
  | some fn => return .call fn receiver base argc kw blk

variable {m m' m₀ : Machine} {e e₀ e₁ : Env} {fn : FnId} {seq : Sequence} {slot : UInt32} {args : List Value}
  {kw u v w : Value} {a : Activation} {site : SendSite} {blk : Option Block} {n : Nat}

namespace Exec

/-- Words are added to the stack as long as there is room for them. -/
theorem extend_lays (hi : m.heap.Inv) (vs : List Value) :
    (m.context.stack.len + vs.length ≤ m.context.stack.capacity → ∃ m', extend vs m = .ok () m' ∧
      Lays m m' m.context.stack.len vs.length fun i => vs.getD i .nil) ∧
    (m.context.stack.capacity < m.context.stack.len + vs.length → extend vs m =
      .error (.stackOverflow (m.context.stack.len + vs.length : Nat) m.context.stack.capacity) m) := by
  obtain ⟨hok, hfull⟩ := extend_cases (Machine.Holds.refl m) vs
  refine ⟨fun hroom => ?_, hfull⟩
  obtain ⟨m', hrun, h⟩ := hok hroom
  have hheap : (m'.withStack m.context.stack).heap = m.heap := by rw [h.rest]
  replace hheap : m'.heap = m.heap := hheap
  refine ⟨m', hrun, ?_, h.stack.len, h.stack.capacity, fun i hlt => ?_, fun i hlt => ?_, hheap ▸ hi, fun _ _ hr => hheap ▸ hr⟩
  · show (m'.withStack m.context.stack).withMemory m = m
    rw [h.rest]
    rfl
  · exact (h.stack.slot i).trans (overlay_of_lt hlt)
  · exact (h.stack.slot _).trans (overlay_mem hlt)

end Exec

/-! ## What a send finds -/

namespace Machine.Carries

variable (h : m.Carries e fn slot.toNat args kw w)

include h

theorem fn_apply : e.fn m = .ok fn m := by
  refine fn_of_word ?_
  rw [← h.code]
  exact h.live.wordAt rfl (by decide)

theorem runs (hcode : m.functions.sequence fn = .ok seq) : m.Runs e seq :=
  ⟨fn, h.fn_apply, sequence_eq_ok.2 ⟨rfl, hcode⟩⟩

/-- The block of the method is that of the word for it. -/
theorem methodBlock?_apply : methodBlock? e m = .ok (Block.ofWord w) m := by
  have hmethod : e.method m = .ok e.name m := by
    rw [← h.method]
    exact h.live.wordAt rfl (by decide)
  have hblock : e.block m = .ok w m := by
    rw [← h.block]
    exact h.live.wordAt rfl (by decide)
  rw [methodBlock?, bind_of_ok hmethod, bind_of_ok h.live.envAt, bind_of_ok hblock]
  rfl

/-- From code that is nested in a method the way out leads to what the method carries. -/
theorem delegateEnv_apply (name : Ident) (hs : seq.Delegates slot) (hcode : m.functions.sequence fn = .ok seq) :
    ∃ u, u.isRef = true ∧ m.heap.read u.toRef = .ok (.array args.toArray) ∧
      ∀ n e₁ fuel, m.Within e n e₁ → n < fuel → (delegateEnv name fuel e₁).run m = .ok (.ok (e, [u, kw])) m := by
  obtain ⟨href, u, hpair, hu, hlist⟩ := h.hidden
  have hseq : sequence fn m = .ok seq m := sequence_eq_ok.2 ⟨rfl, hcode⟩
  refine ⟨u, hu, hlist, fun n e₁ fuel hw hfuel => ?_⟩
  induction hw generalizing fuel with
  | here =>
    obtain ⟨fuel, rfl⟩ : ∃ k, fuel = k + 1 := ⟨fuel - 1, by omega⟩
    have hlocal : e.localAt slot.toNat m = .ok (m.localOf e slot.toNat) m := h.live.localAt h.fits
    refine (Attempt.run_lift_bind h.fn_apply).trans ((Attempt.run_lift_bind hseq).trans ?_)
    rw [hs.delegate]
    exact (Attempt.run_lift_bind hlocal).trans (Attempt.run_lift_bind (asArray?_apply href hpair))
  | @block e₁ e₂ o seq₁ n hr hn ho hnil he hw ih =>
    obtain ⟨fuel, rfl⟩ : ∃ k, fuel = k + 1 := ⟨fuel - 1, by omega⟩
    obtain ⟨fn₁, hfn, hseq₁⟩ := hr
    refine (Attempt.run_lift_bind hfn).trans ((Attempt.run_lift_bind hseq₁).trans ?_)
    rw [hn]
    refine (Attempt.run_lift_bind ho).trans ?_
    rw [hnil]
    exact (Attempt.run_lift_bind he).trans (ih fuel (by omega))

/-- What the method around a send was called with is pushed and given back, as long as there is room. -/
theorem pushDelegated_apply (hs : seq.Delegates slot) (hcode : m.functions.sequence fn = .ok seq)
    (hframe : frameEnv a.frame m = .ok e₁ m) (hw : m.Within e n e₁) :
    (m.context.stack.len + args.length ≤ m.context.stack.capacity → ∃ m',
      Lays m m' m.context.stack.len args.length (fun i => args.getD i .nil) ∧
      (pushDelegated a .nil none).run m = .ok (.ok (kw, Block.ofWord w)) m') ∧
    (m.context.stack.capacity < m.context.stack.len + args.length → (pushDelegated a .nil none).run m =
      .error (.stackOverflow (m.context.stack.len + args.length : Nat) m.context.stack.capacity) m) := by
  obtain ⟨u, hu, hlist, hfind⟩ := h.delegateEnv_apply a.seq.name hs hcode
  have hsome : seq.delegateSlot.isSome = true := by rw [hs.delegate]; rfl
  have hlt := hw.lt_placeCount (h.runs hcode) hsome
  have hfuel : scopeFuel m = .ok (m.heap.pages.size * Heap.pageCells + 1) m := rfl
  have hstack : Exec.stack m = .ok m.context.stack m := rfl
  obtain ⟨hroom, hfull⟩ := extend_lays h.inv args
  have hfound : (delegateEnv a.seq.name (m.context.stack.capacity + (m.heap.pages.size * Heap.pageCells + 1)) e₁).run m =
      .ok (.ok (e, [u, kw])) m := hfind n e₁ _ hw (by unfold placeCount at hlt; omega)
  have hkw (m' : Machine) : (forwardKeywords kw .nil).run m' = .ok (.ok kw) m' := by
    unfold forwardKeywords
    by_cases hn : kw.isNil = true
    · rw [if_pos hn, show kw = .nil from eq_of_beq hn]
      rfl
    · rw [if_neg hn]
      rfl
  -- everything up to the arguments is found without a change
  have hstart : (pushDelegated a .nil none).run m = (do
      extend args
      let kw ← forwardKeywords kw .nil
      return (kw, ← methodBlock? e) : Attempt (Value × Option Block)).run m := by
    refine (Attempt.run_lift_bind hstack).trans ((Attempt.run_lift_bind hfuel).trans ?_)
    refine (Attempt.run_lift_bind hframe).trans ((Attempt.run_bind_ok hfound).trans ?_)
    refine (Attempt.run_lift_bind (asArray?_apply hu hlist)).trans ?_
    rfl
  rw [hstart]
  refine ⟨fun hlen => ?_, fun hlen => ?_⟩
  · obtain ⟨m', hrun, hl⟩ := hroom hlen
    have h' := h.spared (.of_lays h.live h.fits hl le_rfl)
    refine ⟨m', hl, (Attempt.run_lift_bind hrun).trans ((Attempt.run_bind_ok (hkw m')).trans ?_)⟩
    exact Attempt.run_lift_bind h'.methodBlock?_apply
  · exact Attempt.run_lift_bind_error (hfull hlen)

end Machine.Carries

/-! ## Sends -/

namespace SendSite.Forwards

variable (h : site.Forwards)

include h

theorem has (flag : UInt8) : site.has flag = (ArgFlag.delegate &&& flag != 0) := by
  rw [SendSite.has, h.flags]

theorem siteBlock_apply (f : Nat) (m : Machine) : (siteBlock site f).run m = .ok (.ok none) m := by
  rw [siteBlock, h.has, if_neg (by decide), if_neg (by rw [h.block]; decide)]
  rfl

theorem siteKeywords_apply (m : Machine) : (siteKeywords site).run m = .ok (.ok .nil) m := by
  rw [siteKeywords, h.has, if_neg (by decide), h.has, if_neg (by decide)]
  rfl

/-- A send that passes on arguments calls with those that are pushed for it. -/
theorem startSend_eq (a : Activation) (m : Machine) : (startSend a site).run m = (do
    let (kw, blk) ← pushDelegated a .nil none
    let argc := (← height) - m.context.stack.len
    callSite a site m.context.stack.len argc kw blk : Attempt Control).run m := by
  have hbase : (m.context.stack.len : Int) - (site.argc : Nat) = m.context.stack.len := by rw [h.argc]; omega
  have hheight : height m = .ok (m.context.stack.len : Int) m := rfl
  refine (Attempt.run_bind_ok (h.siteBlock_apply a.frame m)).trans ?_
  refine (Attempt.run_bind_ok (h.siteKeywords_apply m)).trans ((Attempt.run_lift_bind hheight).trans ?_)
  rw [hbase]
  dsimp only
  rw [h.has, if_neg (by decide), h.has, if_pos (by decide)]
  rfl

end SendSite.Forwards

/-- A send that passes on arguments calls with what the method around it carries, as long as there is room. -/
theorem Machine.Carries.startSend_apply (h : m.Carries e fn slot.toNat args kw w) (hs : seq.Delegates slot)
    (hcode : m.functions.sequence fn = .ok seq) (hframe : frameEnv a.frame m = .ok e₁ m) (hw : m.Within e n e₁)
    (hsite : site.Forwards) :
    (m.context.stack.len + args.length ≤ m.context.stack.capacity → ∃ m',
      Lays m m' m.context.stack.len args.length (fun i => args.getD i .nil) ∧
      (startSend a site).run m = (callSite a site m.context.stack.len args.length kw (Block.ofWord w)).run m') ∧
    (m.context.stack.capacity < m.context.stack.len + args.length → (startSend a site).run m =
      .error (.stackOverflow (m.context.stack.len + args.length : Nat) m.context.stack.capacity) m) := by
  obtain ⟨hroom, hfull⟩ := h.pushDelegated_apply hs hcode hframe hw
  rw [hsite.startSend_eq]
  refine ⟨fun hlen => ?_, fun hlen => Attempt.run_bind_error (hfull hlen)⟩
  obtain ⟨m', hl, hrun⟩ := hroom hlen
  have hheight : height m' = .ok ((m.context.stack.len + args.length : Nat) : Int) m' := by
    rw [← hl.len]
    rfl
  refine ⟨m', hl, (Attempt.run_bind_ok hrun).trans ((Attempt.run_lift_bind hheight).trans ?_)⟩
  rw [show ((m.context.stack.len + args.length : Nat) : Int) - m.context.stack.len = args.length by omega]

/-! ## From the call to the send -/

/-- What the block of a method is after a course from `m₀` to `m`: itself, or a Proc of its code that was made when a frame
was moved, and that runs in the copy which the frame of the block had then. -/
inductive Block.Becomes (slot : Nat) (m₀ : Machine) (e₀ : Env) (m : Machine) : Option Block → Option Block → Prop
  | same (blk : Option Block) : Becomes slot m₀ e₀ m blk blk
  | proc {fn : FnId} {home : Nat} {v : Value} {m₁ : Machine} {e₁ : Env} : Course slot m₀ e₀ m₁ e₁ →
      m.IsProc v fn (m₁.slot (home + 1)) → Becomes slot m₀ e₀ m (some (.literal fn home)) (some (.proc v))

theorem Machine.Course.carries_block {slot : Nat} (hc : Course slot m₀ e₀ m e) (hb : Block.Encodable blk)
    (h : m₀.Carries e₀ fn slot args kw (Block.word blk)) :
    ∃ w, m.Carries e fn slot args kw w ∧ Block.Becomes slot m₀ e₀ m blk (Block.ofWord w) := by
  obtain ⟨w, hw, rfl | ⟨hlit, m₁, e₁, hc₁, hp⟩⟩ := hc.carries h
  · refine ⟨_, hw, ?_⟩
    rw [Block.ofWord_word hb]
    exact .same blk
  · refine ⟨w, hw, ?_⟩
    rw [hb.literal_of_isBlock hlit, Block.ofWord_of_isRef hp.isRef]
    exact .proc hc₁ hp

/-- A method that takes nothing but what it passes on passes on just that. It is called with any arguments, no keywords or
those of a hash, and any block, and then runs, whatever happens to its other locals and its temporaries, and whether its
frame stays on the stack or moves to the heap. A send in its code, or in code nested in it, that asks for what was passed
puts all the arguments on the stack, in their order, and calls with them, the keywords and the block. -/
theorem forwarding_exact {low : Nat} (fn : FnId) (self : Value) (hs : seq.Delegates slot) (hm : Called m seq low args)
    (hkw : m.HasKeywords kw) (hb : Block.Encodable blk) (hroom : low + seq.slotCount + 9 ≤ m.context.stack.capacity)
    (hsmall : m.context.stack.capacity < 2 ^ 38) (hcode : m.functions.sequence fn = .ok seq) :
    (invoke fn seq self low args.length kw blk .nil false).Reaches m (do
        safepoint
        return .exec (m.entering fn seq low) 0) (m.heap.pages.size + 3)
      fun m₁ => m.Starts m₁ fn seq slot low args kw blk ∧
        ∀ m₂ e n e₁ a site, Course slot.toNat m₁ (.stack (low + seq.slotCount + 1)) m₂ e → m₂.Within e n e₁ →
          frameEnv a.frame m₂ = .ok e₁ m₂ → site.Forwards →
          ∃ blk', Block.Becomes slot.toNat m₁ (.stack (low + seq.slotCount + 1)) m₂ blk blk' ∧
            (m₂.context.stack.len + args.length ≤ m₂.context.stack.capacity → ∃ m₃,
              Lays m₂ m₃ m₂.context.stack.len args.length (fun i => args.getD i .nil) ∧
              (startSend a site).run m₂ = (callSite a site m₂.context.stack.len args.length kw blk').run m₃) ∧
            (m₂.context.stack.capacity < m₂.context.stack.len + args.length → (startSend a site).run m₂ =
              .error (.stackOverflow (m₂.context.stack.len + args.length : Nat) m₂.context.stack.capacity) m₂) := by
  rcases invoke_starts fn self blk hs hm hkw hroom hsmall with ⟨m₁, hrun, h₁⟩ | hfull
  swap
  · exact .inr hfull
  refine .inl ⟨m₁, hrun, h₁, fun m₂ e n e₁ a site hc hw hframe hsite => ?_⟩
  have hcode₂ : m₂.functions.sequence fn = .ok seq := hc.code (h₁.functions ▸ hcode)
  obtain ⟨w, hcarries, hbecomes⟩ := hc.carries_block hb h₁.carries
  exact ⟨_, hbecomes, hcarries.startSend_apply hs hcode₂ hframe hw hsite⟩

/-- A method that passes on what it is called with. -/
def forwardAll : Sequence where
  name := ⟨1⟩
  kind := .method
  params := { delegate := true }
  delegateSlot := some 0
  slots := 1

/-- A block that does so. -/
def forwardNear : Sequence := { forwardAll with kind := .block }

/-- A machine that is about to call the method with two arguments. All classes have a method to call in turn. -/
def passing : Machine where
  options := {}
  heap := .new 0 false
  classes := ⟨Array.replicate 24 { name := ⟨0⟩, methods := [(⟨2⟩, ⟨3⟩)] }⟩
  functions := ⟨#[{ name := ⟨1⟩, body := .code forwardAll, sites := #[{}] },
    { name := ⟨1⟩, body := .code forwardNear, sites := #[{}] }]⟩
  pool := { capacity := 0, stackSize := 0 }
  context := { stack := { slots := #[.nil, .true, .false], len := 3, capacity := 64, len_le := by decide } }

/-- The method starts, and both arguments and the block are there again at a send of it. -/
theorem forwarding_passing : forwardAll.Delegates 0 ∧ Called passing forwardAll 1 [.true, .false] ∧
    passing.HasKeywords .nil ∧ Block.Encodable (some (.symbol ⟨3⟩)) ∧
    (∃ m₁, invoke ⟨1⟩ forwardAll .nil 1 2 .nil (some (.symbol ⟨3⟩)) .nil false passing =
      .ok (.exec (passing.entering ⟨1⟩ forwardAll 1) 0) m₁) ∧
    ∃ m₁, invoke ⟨1⟩ forwardAll .nil 1 2 .nil (some (.symbol ⟨3⟩)) .nil false passing = (do
        safepoint
        return .exec (passing.entering ⟨1⟩ forwardAll 1) 0 : Exec Control) m₁ ∧
      ∃ m₃, m₃.slot 11 = .true ∧ m₃.slot 12 = .false ∧
        (startSend (passing.entering ⟨1⟩ forwardAll 1) ⟨⟨2⟩, 0, ArgFlag.delegate, ⟨0⟩, 0, false⟩).run m₁ =
          (callSite (passing.entering ⟨1⟩ forwardAll 1) ⟨⟨2⟩, 0, ArgFlag.delegate, ⟨0⟩, 0, false⟩ 11 2 .nil
            (some (.symbol ⟨3⟩))).run m₃ := by
  have hs : forwardAll.Delegates 0 := ⟨rfl, rfl, by decide, rfl, rfl⟩
  have hm : Called passing forwardAll 1 [.true, .false] :=
    ⟨Heap.inv_new 0 false, rfl, by decide, by decide, by decide⟩
  have hkw : passing.HasKeywords .nil := .inl rfl
  have hb : Block.Encodable (some (.symbol ⟨3⟩)) := .symbol _
  refine ⟨hs, hm, hkw, hb, ?_⟩
  obtain ⟨m₁, hrun, h₁, hsend⟩ :=
    (forwarding_exact ⟨1⟩ .nil hs hm hkw hb (by decide) (by decide) rfl).exists_run (by decide)
  have hstarted : (result? (invoke ⟨1⟩ forwardAll .nil 1 2 .nil (some (.symbol ⟨3⟩)) .nil false) passing).isSome = true := by
    decide +kernel
  obtain ⟨c, hc⟩ := Option.isSome_iff_exists.1 hstarted
  have hok := eq_ok_of_result? hc
  have hcontrol : c = .exec (passing.entering ⟨1⟩ forwardAll 1) 0 := by
    obtain ⟨_, m₂, -, hret⟩ := exists_of_bind (hrun.symm.trans hok)
    cases hret
    rfl
  refine ⟨⟨_, hcontrol ▸ hok⟩, m₁, hrun, ?_⟩
  have hframe : frameEnv 3 m₁ = .ok (.stack 3) m₁ := h₁.carries.live.envAt
  obtain ⟨blk', hbecomes, hroom, -⟩ := hsend m₁ _ 0 _ (passing.entering ⟨1⟩ forwardAll 1)
    ⟨⟨2⟩, 0, ArgFlag.delegate, ⟨0⟩, 0, false⟩ .start .here hframe ⟨rfl, rfl, rfl⟩
  cases hbecomes
  have hlen : m₁.context.stack.len = 11 := h₁.len
  have hcapacity : m₁.context.stack.capacity = 64 := h₁.capacity
  rw [hlen, hcapacity] at hroom
  obtain ⟨m₃, hl, hsame⟩ := hroom (by decide)
  exact ⟨m₃, hl.slot 0 (by decide), hl.slot 1 (by decide), hsame⟩

/-- The number of arguments and the block of the call that a send comes to. -/
def Exec.calledWith (site : SendSite) : Control → Exec (Option (Int × Option Block))
  | .exec a _ => do
    push .nil
    match ← (startSend a site).run with
    | .ok (.call _ _ _ argc _ blk) => return some (argc, blk)
    | _ => return none
  | _ => return none

/-- A block that the send has of its own takes the place of the one that was passed. In a block that takes arguments to pass
on it is these that are passed on. And the hidden local is a local: when it is set, there is nothing to pass on. -/
theorem forwarding_nearest :
    (∃ site : SendSite, site.argc = 0 ∧ site.flags = ArgFlag.delegate ∧ ∃ blk, blk ≠ some (.symbol ⟨3⟩) ∧
      result? (do calledWith site (← invoke ⟨1⟩ forwardAll .nil 1 2 .nil (some (.symbol ⟨3⟩)) .nil false)) passing =
        some (some (2, blk))) ∧
    (∃ site, SendSite.Forwards site ∧ ∃ argc, argc ≠ 2 ∧ result? (do
        let _ ← invoke ⟨1⟩ forwardAll .nil 1 2 .nil (some (.symbol ⟨3⟩)) .nil false
        let base ← pushCall .nil [.true]
        calledWith site (← invoke ⟨2⟩ forwardNear .nil base 1 .nil none (.frameAt 3) true)) passing =
      some (some (argc, some (.symbol ⟨3⟩)))) ∧
    ∃ site, SendSite.Forwards site ∧ result? (do
        let c ← invoke ⟨1⟩ forwardAll .nil 1 2 .nil (some (.symbol ⟨3⟩)) .nil false
        (Env.stack 3).setLocalAt 0 .nil
        calledWith site c) passing = none := by
  refine ⟨⟨⟨⟨2⟩, 0, ArgFlag.delegate, ⟨9⟩, 0, false⟩, rfl, rfl, some (.literal ⟨9⟩ 3), by decide, ?_⟩,
    ⟨⟨⟨2⟩, 0, ArgFlag.delegate, ⟨0⟩, 0, false⟩, ⟨rfl, rfl, rfl⟩, 1, by decide, ?_⟩,
    ⟨⟨2⟩, 0, ArgFlag.delegate, ⟨0⟩, 0, false⟩, ⟨rfl, rfl, rfl⟩, ?_⟩
  · decide +kernel
  · decide +kernel
  · decide +kernel

end RubyMachine
