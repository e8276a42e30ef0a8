import RubyMachine.Proofs.Threads.Switching

/-! Builtin methods: each keeps what its caller is promised, whether it comes to its value at once, calls back
or comes to another thread. -/

namespace RubyMachine

namespace Exec

open Machine Keeping

variable {α : Type} {b : Bool} {p : Mark} {m : Machine}

/-! ## Iterations -/

/-- Calls a block, with something left to be done when it comes back. -/
theorem callWith_calls (k : Kont) (blk : Option Block) (vs : List Value) (hk : k.Accepts m.context.mark)
    (hd : drivenFibers [k] = []) (hp : k.after m.context.mark = p) : Calls b (do
      pushKont k
      callBlock blk vs) p m :=
  .pushKont hk (hp ▸ .refl _) (fun _ h => by rw [hd] at h; cases h) (blockOn _ _ rfl)

theorem arrayOf_stays (v : Value) : (arrayOf v).Stays :=
  stays_of_keeping 0 fun m => (Steady.logic m).arrayOf trivial

theorem eachFrom_calls (self : Value) (blk : Block) (i : Nat) (hp : m.context.mark = p) :
    Calls b (eachFrom self blk i) p m := by
  refine .after (arrayOf_stays _) fun a m₁ h₁ => ?_
  have hp := h₁.trans hp
  split
  · exact callWith_calls _ _ _ trivial rfl hp
  · exact .value _ hp

theorem mapFrom_calls (self : Value) (blk : Block) (out : Value) (i : Nat)
    (hp : (Kont.map self blk out i).after m.context.mark = p) : Calls b (mapFrom self blk out i) p m := by
  refine .after (arrayOf_stays _) fun a m₁ h₁ => ?_
  rw [← h₁] at hp
  split
  · exact callWith_calls _ _ _ trivial rfl hp
  · exact .release (.value _ hp)

theorem timesFrom_calls (count i : Int) (self : Value) (blk : Block) (hp : m.context.mark = p) :
    Calls b (timesFrom count i self blk) p m := by
  unfold timesFrom
  split
  · exact callWith_calls _ _ _ trivial rfl hp
  · exact .value _ hp

theorem loopAgain_calls (blk : Block) (hp : m.context.mark = p) : Calls b (loopAgain blk) p m :=
  callWith_calls _ _ _ trivial rfl hp

theorem operation_stays (op : Operator) (lhs rhs : Value) : (operation op lhs rhs).Stays :=
  stays_of_keeping 0 fun m => (Steady.logic m).operation op trivial trivial

theorem demand_stays (x : Option α) : (demand x).Stays :=
  stays_of_keeping 0 fun m => (Steady.logic m).demand (maybe_true x)

theorem equalFrom_calls (self other : Value) (n i : Nat) (hp : m.context.mark = p) :
    Calls b (equalFrom self other n i) p m := by
  induction n generalizing i m with
  | zero => exact .value _ hp
  | succ n ih =>
    refine .after (arrayOf_stays _) fun _ m₁ h₁ => ?_
    refine .after (demand_stays _) fun _ m₂ h₂ => ?_
    refine .after (arrayOf_stays _) fun _ m₃ h₃ => ?_
    refine .after (demand_stays _) fun _ m₄ h₄ => ?_
    refine .after (operation_stays _ _ _) fun r m₅ h₅ => ?_
    have hp := h₅.trans (h₄.trans (h₃.trans (h₂.trans (h₁.trans hp))))
    split
    · split
      · exact ih (i + 1) hp
      · exact .value _ hp
    · exact .failure _ hp
    · subst hp
      exact pushOn trivial rfl rfl fun m' h => sendOperatorOn _ _ _ _ h

theorem asString?_stays (v : Value) : (asString? v).Stays :=
  stays_of_keeping 0 fun m => (Steady.logic m).asString? trivial

theorem write_stays (s : String) : (write s).Stays :=
  stays_of_keeping 0 fun m => (Steady.logic m).write s

theorem putsAll_calls (vs : List Value) (hp : m.context.mark = p) : Calls b (putsAll vs) p m := by
  induction vs generalizing m with
  | nil => exact .value _ hp
  | cons v rest ih =>
    refine .after (asString?_stays _) fun s m₁ h₁ => ?_
    cases s with
    | some s => exact .after (write_stays _) fun _ m₂ h₂ => ih (h₂.trans (h₁.trans hp))
    | none =>
      have hp := h₁.trans hp
      subst hp
      exact pushOn trivial rfl rfl fun m' h => sendOn _ _ _ _ _ h

/-! ## Computations that may fail -/

theorem attempt_bind (x : Exec α) (f : α → Attempt Control) : attempt (liftM x >>= f) = x >>= fun a => attempt (f a) := by
  simp only [attempt, run_liftM_bind, bind_assoc]

theorem attempt_lift (x : Exec Control) : attempt (liftM x) = x := by
  rw [← bind_pure (liftM x : Attempt Control), attempt_bind]
  exact bind_pure x

namespace Calls

theorem tryGo {x : Exec α} {f : α → Attempt Control} (hx : x.Stays)
    (hf : ∀ a m', m'.context.mark = m.context.mark → Calls b (attempt (f a)) p m') :
    Calls b (attempt (liftM x >>= f)) p m := by
  rw [attempt_bind]
  exact .after hx hf

theorem tryLift {x : Exec Control} (hx : Calls b x p m) : Calls b (attempt (liftM x)) p m := by
  rwa [attempt_lift]

theorem tryProtect {v : Value} {f : Unit → Attempt Control}
    (hf : Calls b (attempt (f ())) p { m with context.temps := v :: m.context.temps }) :
    Calls b (attempt (liftM (Exec.protect v) >>= f)) p m := by
  rw [attempt_bind]
  exact .protect hf

theorem tryPushKont {k : Kont} {f : Unit → Attempt Control} (hk : k.Accepts m.context.mark)
    (hd : drivenFibers [k] = []) (hp : k.after m.context.mark = p)
    (hf : ∀ m', m'.context.mark = m.context.mark → Calls b (attempt (f ())) m.context.mark m') :
    Calls b (attempt (liftM (Exec.pushKont k) >>= f)) p m := by
  rw [attempt_bind]
  exact .pushKont hk (hp ▸ .refl _) (fun _ h => by rw [hd] at h; cases h) (hf _ rfl)

theorem answered {r : Except Failure Value} {m' : Machine} (hs : m.Steady m') (hp : m.context.mark = p) :
    m.Goes p b (.deliver r) m' :=
  .of_defers (.of_steady hs) (.on (.of_meets (hs.mark.trans hp ▸ m'.context.exactMark_meets)) trivial)

/-- What gives its outcome without leaving the thread. -/
theorem answer {x : Attempt Control} {n : Nat} (hx : Logic.Tries (Keeping m.Steady) (.anything n) x Known.answer)
    (hp : m.context.mark = p) : Calls b (attempt x) p m := by
  intro _ c m' h
  obtain ⟨r, m₁, hr, h₁⟩ := exists_of_bind h
  obtain ⟨hs, K, hK⟩ := steady_of_keeping hx hr
  cases r with
  | error f =>
    cases h₁
    exact answered hs hp
  | ok c =>
    cases h₁
    cases c with
    | deliver r => exact answered hs hp
    | _ => exact hK.elim

end Calls

theorem appendText_calls (self : Value) (s : String) (hp : m.context.mark = p) :
    Calls b (appendText self s) p m := by
  rw [← attempt_lift (appendText self s)]
  have L := Steady.logic m
  exact .answer (n := 0) (L.tryLift (L.ofSame (L.appendText trivial s) fun _ h => h)) hp

/-! ## Builtins -/

theorem enumeratorOf_stays (v : Value) : (enumeratorOf v).Stays :=
  stays_of_keeping 0 fun m => (Steady.logic m).enumeratorOf trivial

theorem rewind_calls (self : Value) (hp : m.context.mark = p) : Calls true (Builtin.rewind self) p m := by
  refine .after (enumeratorOf_stays _) fun e m₁ h₁ => ?_
  refine .after (stays_of_keeping 0 fun m => (Steady.logic m).asFiber? trivial) fun r m₂ h₂ => ?_
  have hp := h₂.trans (h₁.trans hp)
  cases r with
  | none => exact .after (setEnumeratorFiber_stays _ _) fun _ m₃ h₃ => .value _ (h₃.trans hp)
  | some id =>
    refine .fiber fun f _ => ?_
    split
    · exact abandonRunning_calls id
    · refine .after (releaseFiber_stays _) fun _ m₃ h₃ => ?_
      exact .after (setEnumeratorFiber_stays _ _) fun _ m₄ h₄ => .value _ (h₄.trans (h₃.trans hp))

theorem intern_stays (name : String) : (intern name).Stays :=
  stays_of_keeping 0 fun m => (Steady.logic m).intern name

theorem newArray_stays (vs : List Value) : (newArray vs).Stays :=
  stays_of_keeping 0 fun m => (Steady.logic m).newArray fun _ _ => trivial

/-- What is given instead of an iteration when there is no block for it. -/
theorem enumerator_calls (receiver : Value) (method : Ident) (args : List Value) (hp : m.context.mark = p) :
    Calls b (attempt do
      let e ← newEnumerator receiver method args
      return .value e) p m :=
  .tryGo (stays_of_keeping 0 fun m => (Steady.logic m).newEnumerator method trivial fun _ _ => trivial)
    fun _ _ h => .value _ (h.trans hp)

theorem calling_calls (b : Builtin) (hc : b.calls = true) (self : Value) (args : List Value) (blk : Option Block)
    (hp : m.context.mark = p) : Calls true (attempt (b.run self args blk)) p m := by
  cases b with
  | differs => exact .tryLift (sendOperatorOn _ _ _ _ hp)
  | caseEqual => exact .tryLift (sendOperatorOn _ _ _ _ hp)
  | puts =>
    change Calls true (attempt (if args.isEmpty then _ else _)) p m
    split
    · exact .tryGo (write_stays _) fun _ _ h => .tryLift (putsAll_calls _ (h.trans hp))
    · exact .tryLift (putsAll_calls _ hp)
  | loop =>
    cases blk with
    | none => exact .tryGo (intern_stays _) fun _ _ h => enumerator_calls _ _ _ (h.trans hp)
    | some b => exact .tryLift (loopAgain_calls _ hp)
  | construct =>
    refine .tryGo (stays_of_keeping 0 fun m => (Steady.logic m).asModule? trivial) fun r m₁ h₁ => ?_
    refine .tryGo (stays_of_keeping 0 fun m => (Steady.logic m).newObject trivial) fun obj m₂ h₂ => ?_
    refine .tryGo (findMethod_stays _ _) fun f m₃ h₃ => ?_
    have hp := h₃.trans (h₂.trans (h₁.trans hp))
    cases f with
    | none => exact .value _ hp
    | some fn => exact .tryProtect (.tryPushKont trivial rfl hp fun m' h => .tryLift (sendOn _ _ _ _ _ h))
  | operator op =>
    refine .tryGo (operation_stays _ _ _) fun r m₁ h₁ => ?_
    cases r with
    | done r => exact .deliver _ (h₁.trans hp ▸ m₁.context.exactMark_meets)
    | send name negated => exact .tryLift (sendOperatorOn _ _ _ _ (h₁.trans hp))
  | times =>
    cases blk with
    | none => exact .tryGo (intern_stays _) fun _ _ h => enumerator_calls _ _ _ (h.trans hp)
    | some b =>
      refine .tryGo (stays_of_keeping 0 fun m => (Steady.logic m).fixnumOf _) fun n m₁ h₁ => ?_
      exact .tryLift (timesFrom_calls _ _ _ _ (h₁.trans hp))
  | stringAppend =>
    refine .tryGo (asString?_stays _) fun s m₁ h₁ => ?_
    have hp := h₁.trans hp
    cases s with
    | some s => exact .tryLift (appendText_calls _ _ hp)
    | none => exact .tryPushKont trivial rfl hp fun m' h => .tryLift (sendOn _ _ _ _ _ h)
  | arrayEqual =>
    refine .tryGo (stays_of_keeping 0 fun m => (Steady.logic m).asArray? trivial) fun r m₁ h₁ => ?_
    have hp := h₁.trans hp
    cases r with
    | none => exact .value _ hp
    | some other =>
      refine .tryGo (arrayOf_stays _) fun a m₂ h₂ => ?_
      dsimp only
      split
      · exact .value _ (h₂.trans hp)
      · exact .tryLift (equalFrom_calls _ _ _ _ (h₂.trans hp))
  | arrayEach =>
    cases blk with
    | none => exact enumerator_calls _ _ _ hp
    | some b => exact .tryLift (eachFrom_calls _ _ _ hp)
  | arrayMap =>
    cases blk with
    | none => exact enumerator_calls _ _ _ hp
    | some b =>
      refine .tryGo (newArray_stays _) fun out m₁ h₁ => ?_
      exact .tryProtect (.tryLift (mapFrom_calls _ _ _ _ (h₁.trans hp)))
  | procCall => exact .tryLift (blockOn _ _ hp)
  | fiberYield => exact .tryGo (pack_stays _) fun v m₁ h₁ => .tryLift (suspend_calls _ (h₁.trans hp))
  | fiberResume =>
    change Calls true (attempt (liftM (fiberOf self) >>= fun id => liftM (resumeFiber id args))) p m
    rw [attempt_bind]
    exact .fiberOf fun id hid => .tryLift (resumeFiber_calls hid _ hp)
  | enumNext => exact .tryGo (enumeratorOf_stays _) fun e m₁ h₁ => .tryLift (enumeratorNext_calls _ _ (h₁.trans hp))
  | enumRewind => exact .tryLift (rewind_calls _ hp)
  | enumEach =>
    cases blk with
    | none => exact .value _ hp
    | some b =>
      refine .tryGo (enumeratorOf_stays _) fun e m₁ h₁ => .tryLift ?_
      exact drive_calls _ _ _ fun _ _ => h₁.trans hp
  | enumMap =>
    cases blk with
    | none => exact enumerator_calls _ _ _ hp
    | some b =>
      refine .tryGo (enumeratorOf_stays _) fun e m₁ h₁ => ?_
      refine .tryGo (newArray_stays _) fun out m₂ h₂ => .tryProtect (.tryLift ?_)
      exact drive_calls _ _ _ fun _ _ => h₂.trans (h₁.trans hp)
  | enumWithIndex =>
    unfold Builtin.run Builtin.runEnumerator
    dsimp only
    split
    · exact .failure _ hp
    cases blk with
    | none => exact enumerator_calls _ _ _ hp
    | some b =>
      refine .tryGo (enumeratorOf_stays _) fun e m₁ h₁ => .tryLift ?_
      exact drive_calls _ _ _ fun _ _ => h₁.trans hp
  | host name => exact .ready (hp ▸ m.context.exactMark_meets) trivial
  | _ => cases hc

/-- Collections apart, which come between steps. -/
theorem builtin_calls (b : Builtin) (hg : b ≠ .collect) (self : Value) (args : List Value) (blk : Option Block)
    (hp : m.context.mark = p) : Calls true (attempt (b.run self args blk)) p m := by
  cases hc : b.calls with
  | true => exact calling_calls b hc self args blk hp
  | false =>
    exact .answer (n := args.length) ((Steady.logic m).runPlain b hc hg trivial (fun _ _ => trivial)
      (maybe_all (Known.all_anything _).block blk) le_rfl) hp

end Exec

end RubyMachine
