import RubyMachine.Proofs.Arguments.Forwarding

/-! The block of a call, from the send to the method: a method finds the block it was called with exactly if there is a word
for it (`invoke_block_iff`), which is so for every block of a send as long as its frame and functions are low enough
(`send_block_found`). -/

namespace RubyMachine

open Exec Machine Code

variable {m m' : Machine} {fn : FnId} {seq : Sequence} {self v kw receiver : Value} {low argc base : Int}
  {blk : Option Block} {a : Activation} {site : SendSite}

/-! ## Pushes -/

theorem Stack.appendAll_cons (s : Stack) (v : Value) (vs : List Value) :
    s.appendAll (v :: vs) = (s.append v).appendAll vs := by
  rw [appendAll, appendAll, mk.injEq]
  refine ⟨rfl, rfl, ?_, rfl⟩
  rw [List.length_cons, append, Nat.add_assoc, Nat.add_comm 1]

theorem Stack.appendAll_nil (s : Stack) : s.appendAll [] = s := rfl

theorem Machine.len_pushed (m : Machine) (v : Value) : (m.pushed v).context.stack.len = m.context.stack.len + 1 := rfl

theorem Machine.capacity_pushed (m : Machine) (v : Value) :
    (m.pushed v).context.stack.capacity = m.context.stack.capacity := rfl

namespace Exec

theorem exists_of_push_bind {α : Type} {f : Unit → Exec α} {b : α} (h : (push v >>= f) m = .ok b m') :
    m.context.stack.len < m.context.stack.capacity ∧ f () (m.pushed v) = .ok b m' := by
  obtain ⟨_, m₁, hpush, hf⟩ := exists_of_bind h
  obtain ⟨s, _, hs, hpush⟩ := exists_of_bind hpush
  cases hs
  obtain ⟨_, _, hcheck, hpush⟩ := exists_of_bind hpush
  by_cases hfull : (m.context.stack.capacity : Int) < (m.context.stack.len : Int) + 1
  · rw [Stack.checkCapacity, if_pos hfull] at hcheck
    cases hcheck
  · rw [Stack.checkCapacity, if_neg hfull] at hcheck
    cases hcheck
    cases hpush
    exact ⟨by omega, hf⟩

/-! ## The method -/

/-- A method that runs has pushed its frame above the receiver. -/
theorem invoke_frame {c : Int} (h : invoke fn seq self low argc kw blk .nil false m = .ok (.exec a c) m') :
    ∃ (s : Stack) (caller flags : Value), a.frame = s.len ∧ s.len + 8 ≤ s.capacity ∧
      m'.context.stack = s.appendAll [caller, .frameAt s.len, flags, .frameAt s.len, .nil, .ofInt 0,
        .ofInt fn.id.toNat, Block.word blk] := by
  unfold invoke at h
  obtain ⟨r, m₁, -, h⟩ := exists_of_bind h
  cases r with
  | error e =>
    obtain ⟨_, _, -, h⟩ := exists_of_bind h
    cases h
  | ok u =>
    obtain ⟨_, _, hcaller, h⟩ := exists_of_bind h
    cases hcaller
    obtain ⟨callerWord, _, hword, h⟩ := exists_of_bind h
    cases hword
    -- the receiver, then the eight words of the frame
    obtain ⟨-, h⟩ := exists_of_push_bind h
    obtain ⟨_, _, hstack, h⟩ := exists_of_bind h
    cases hstack
    rw [if_pos (by decide), pure_bind] at h
    obtain ⟨-, h⟩ := exists_of_push_bind h
    obtain ⟨-, h⟩ := exists_of_push_bind h
    obtain ⟨flags, _, hflags, h⟩ := exists_of_bind h
    obtain ⟨-, rfl⟩ := lift_ok hflags
    obtain ⟨-, h⟩ := exists_of_push_bind h
    obtain ⟨-, h⟩ := exists_of_push_bind h
    obtain ⟨-, h⟩ := exists_of_push_bind h
    obtain ⟨-, h⟩ := exists_of_push_bind h
    obtain ⟨-, h⟩ := exists_of_push_bind h
    obtain ⟨hroom, h⟩ := exists_of_push_bind h
    obtain ⟨_, _, hframe, h⟩ := exists_of_bind h
    cases hframe
    obtain ⟨_, _, hsafe, h⟩ := exists_of_bind h
    cases h
    have hstack := congrArg Context.stack (safepoint_context hsafe)
    refine ⟨(m₁.pushed self).context.stack, (m₁.context.frame.map Value.frameAt).getD .nil, flags, rfl, ?_,
      hstack.trans ?_⟩
    · simp only [len_pushed, capacity_pushed] at hroom ⊢
      omega
    · simp only [Stack.appendAll_cons, Stack.appendAll_nil]
      rfl

/-- The block that code finds in the frame of its method. -/
def frameBlock? (frame : Nat) : Exec (Option Block) := do methodBlock? (← frameEnv frame)

/-- What a method finds for its block is what the word in its frame stands for. -/
theorem invoke_block {c : Int} (h : invoke fn seq self low argc kw blk .nil false m = .ok (.exec a c) m')
    (hsmall : m'.context.stack.capacity ≤ 2 ^ 48) :
    frameBlock? a.frame m' = .ok (Block.ofWord (Block.word blk)) m' := by
  obtain ⟨s, caller, flags, hframe, hroom, hstack⟩ := invoke_frame h
  have hcapacity : m'.context.stack.capacity = s.capacity := by
    rw [hstack, Stack.appendAll]
  have hword (k : Nat) (hk : k < 8) : word ((a.frame : Int) + k) m' = .ok ([caller, .frameAt s.len, flags,
      .frameAt s.len, .nil, .ofInt 0, .ofInt fn.id.toNat, Block.word blk].getD k .nil) m' := by
    rw [word_apply_of (k := a.frame + k) (by omega) (by omega), Machine.slot, hstack, hframe, Stack.appendAll,
      Stack.getD_storeAll_eq, overlay_mem (by exact hk)]
  have hnamed : word (a.frame + Frame.envWord) m' = .ok (.frameAt s.len) m' := hword 1 (by decide)
  have hmethod : (Env.stack a.frame).method m' = .ok (.frameAt s.len) m' := hword 3 (by decide)
  have hblock : (Env.stack a.frame).block m' = .ok (Block.word blk) m' := hword 7 (by decide)
  have henv : envAt (.frameAt s.len) m' = .ok (.stack a.frame) m' := by
    rw [← hframe] at hnamed ⊢
    rw [envAt, if_pos (Value.isFrame_frameAt _), Value.toFrame_frameAt (by omega), bind_of_ok hnamed,
      if_neg (by rw [Value.isRef_frameAt]; decide)]
    rfl
  have hstart : frameEnv a.frame m' = .ok (.stack a.frame) m' := by
    rw [frameEnv, hframe, henv, hframe]
  rw [frameBlock?, bind_of_ok hstart, methodBlock?, bind_of_ok hmethod, bind_of_ok henv, bind_of_ok hblock]
  rfl

/-- A method finds the block that it was called with if and only if there is a word for that block. -/
theorem invoke_block_iff {c : Int} (h : invoke fn seq self low argc kw blk .nil false m = .ok (.exec a c) m')
    (hsmall : m'.context.stack.capacity ≤ 2 ^ 48) : frameBlock? a.frame m' = .ok blk m' ↔ Block.Encodable blk := by
  rw [invoke_block h hsmall, ← Block.ofWord_word_iff]
  exact ⟨fun he => (EStateM.Result.ok.inj he).1, fun he => by rw [he]⟩

-- The frame of the block is too far up for a word: the method finds the block of another frame.
example : result? (do
    let _ ← invoke ⟨1⟩ forwardAll .nil 1 2 .nil (some (.literal ⟨9⟩ (2 ^ 24 + 3))) .nil false
    frameBlock? 3) passing = some (some (.literal ⟨9⟩ 3)) := by
  cbv

end Exec

/-! ## What attempts give -/

namespace Attempt

variable {α β : Type} {P : α → Prop} {Q : β → Prop} {x : Attempt α} {f : α → Attempt β}

/-- Every result of the attempt, if it succeeds, is one of which `P` is true. -/
def Delivers (P : α → Prop) (x : Attempt α) : Prop := ∀ m r m', x.run m = .ok (.ok r) m' → P r

namespace Delivers

theorem bind (hx : Delivers P x) (hf : ∀ r, P r → Delivers Q (f r)) : Delivers Q (x >>= f) := by
  intro m r m' h
  rw [ExceptT.run_bind] at h
  obtain ⟨r₁, m₁, hrun, h⟩ := exists_of_bind h
  cases r₁ with
  | ok r₁ => exact hf r₁ (hx m r₁ m₁ hrun) m₁ r m' h
  | error e => cases h

/-- Whatever the first step gives does not matter. -/
theorem next (hf : ∀ r, Delivers Q (f r)) : Delivers Q (x >>= f) :=
  bind (P := fun _ => True) (fun _ _ _ _ => trivial) fun r _ => hf r

theorem lift {y : Exec α} (h : ∀ m r m', y m = .ok r m' → P r) : Delivers P (liftM y) := by
  intro m r m' hrun
  rw [ExceptT.run_liftM] at hrun
  obtain ⟨r₁, m₁, hy, hrun⟩ := exists_of_bind hrun
  cases hrun
  exact h m _ _ hy

theorem pure {r : α} (h : P r) : Delivers P (Pure.pure r) := by
  intro m r₁ m' hrun
  cases hrun
  exact h

theorem fail (e : Failure) : Delivers P (throw e) := fun _ _ _ hrun => by cases hrun

end Delivers

end Attempt

/-! ## The send -/

/-- If it is a call, there is a word for its block. -/
def Control.Encodable (c : Control) : Prop :=
  ∀ fn receiver base argc kw blk, c = .call fn receiver base argc kw blk → Block.Encodable blk

namespace Exec

open Attempt (Delivers)

theorem isRef_of_asProc? {p : Proc} (h : asProc? v m = .ok (some p) m') : v.isRef = true := by
  unfold asProc? deref? at h
  by_contra hv
  rw [if_neg hv] at h
  cases h

theorem blockFromValue_encodable (v : Value) : Delivers Block.Encodable (blockFromValue v) := by
  unfold blockFromValue
  split
  · exact .pure .none
  split
  · exact .pure (.symbol _)
  refine .bind (P := fun r => r.isSome = true → v.isRef = true) (.lift fun m r m' h => ?_) fun r hr => ?_
  · cases r with
    | none => exact fun hn => by cases hn
    | some p => exact fun _ => isRef_of_asProc? h
  · cases r with
    | none => exact .next fun _ => .next fun _ => .fail _
    | some p => exact .pure (.proc (hr rfl))

theorem siteBlock_encodable {frame : Nat} (hfn : site.block.id.toNat < 2 ^ 24) (hframe : frame < 2 ^ 24) :
    Delivers Block.Encodable (siteBlock site frame) := by
  unfold siteBlock
  split
  · exact .next fun v => blockFromValue_encodable v
  split
  · exact .pure (.literal hfn hframe)
  · exact .pure .none

theorem methodBlock?_encodable {e : Env} (h : methodBlock? e m = .ok blk m') : Block.Encodable blk := by
  obtain ⟨_, _, -, h⟩ := exists_of_bind h
  obtain ⟨_, _, -, h⟩ := exists_of_bind h
  obtain ⟨w, _, -, h⟩ := exists_of_bind h
  cases h
  exact Block.encodable_ofWord w

/-- What is passed on was read from a frame, unless the site has a block of its own. -/
theorem pushDelegated_encodable (hb : Block.Encodable blk) :
    Delivers (fun r => Block.Encodable r.2) (pushDelegated a kw blk) := by
  unfold pushDelegated
  refine .next fun _ => .next fun _ => .next fun _ => .next fun _ => .next fun elems => ?_
  cases blk with
  | some b =>
    cases elems with
    | some _ => exact .next fun _ => .next fun _ => .pure hb
    | none => exact .next fun _ => .pure hb
  | none =>
    have hfound (e : Env) : Delivers Block.Encodable (methodBlock? e : Attempt (Option Block)) :=
      .lift fun _ _ _ h => methodBlock?_encodable h
    cases elems with
    | some _ => exact .next fun _ => .next fun _ => .bind (hfound _) fun _ h => .pure h
    | none => exact .next fun _ => .bind (hfound _) fun _ h => .pure h

theorem callSite_encodable {count : Int} (hb : Block.Encodable blk) :
    Delivers Control.Encodable (callSite a site base count kw blk) := by
  unfold callSite
  refine .next fun _ => .next fun _ => .next fun _ => .next fun found => ?_
  cases found with
  | some fn => exact .pure fun _ _ _ _ _ _ h => by cases h; exact hb
  | none => exact .next fun _ => .fail _

/-- There is a word for every block that a send calls with, if there is one for the block of the site in its frame. -/
theorem startSend_encodable (hfn : site.block.id.toNat < 2 ^ 24) (hframe : a.frame < 2 ^ 24) :
    Delivers Control.Encodable (startSend a site) := by
  unfold startSend
  refine .bind (siteBlock_encodable hfn hframe) fun own hown => .next fun given => .next fun top => ?_
  have hgiven : Delivers (fun r => Block.Encodable r.2) (Pure.pure (given, own)) := .pure hown
  dsimp only
  split
  · refine .next fun _ => .next fun _ => .next fun _ => .next fun _ => .next fun _ => ?_
    split
    · exact .bind (pushDelegated_encodable hown) fun r hr => .next fun _ => callSite_encodable hr
    · exact .bind hgiven fun r hr => .next fun _ => callSite_encodable hr
  · split
    · exact .bind (pushDelegated_encodable hown) fun r hr => .next fun _ => callSite_encodable hr
    · exact .bind hgiven fun r hr => .next fun _ => callSite_encodable hr

/-- Whatever block a send calls a method with, the method finds just that block, as long as the frame of the send and the
function of its block are below 2 ^ 24. -/
theorem send_block_found {m₁ m₂ : Machine} {a₁ : Activation} {c : Int}
    (hsend : (startSend a site).run m = .ok (.ok (.call fn receiver base argc kw blk)) m')
    (hcall : invoke fn seq receiver base argc kw blk .nil false m₁ = .ok (.exec a₁ c) m₂)
    (hfn : site.block.id.toNat < 2 ^ 24) (hframe : a.frame < 2 ^ 24) (hsmall : m₂.context.stack.capacity ≤ 2 ^ 48) :
    frameBlock? a₁.frame m₂ = .ok blk m₂ :=
  (invoke_block_iff hcall hsmall).2 (startSend_encodable hfn hframe m _ m' hsend _ _ _ _ _ _ rfl)

end Exec

end RubyMachine
