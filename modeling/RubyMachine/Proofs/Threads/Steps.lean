import RubyMachine.Proofs.Threads.Builtins

/-! Steps of the machine: what a step comes to keeps what the running thread has promised. -/

namespace RubyMachine

namespace Exec

open Machine Keeping

variable {α β : Type} {b : Bool} {p : Mark} {m : Machine}

/-- What is true of a result, and of the machine then, wherever the computation ends well. -/
def Secures (x : Exec α) (m : Machine) (Q : α → Machine → Prop) : Prop := ∀ a m', x m = .ok a m' → Q a m'

namespace Secures

variable {Q : β → Machine → Prop} {x : Exec α} {f : α → Exec β}

theorem bind (hx : Secures x m fun a m' => Secures (f a) m' Q) : Secures (x >>= f) m Q := by
  intro c m' h
  obtain ⟨a, m₁, ha, hf⟩ := exists_of_bind h
  exact hx a m₁ ha c m' hf

theorem pure {a : β} (h : Q a m) : Secures (Pure.pure a) m Q := by
  intro a' m' he
  cases he
  exact h

theorem go (hx : x.Stays) (hf : ∀ a m', m.Steady m' → Secures (f a) m' Q) : Secures (x >>= f) m Q :=
  .bind fun a m' h => hf a m' (hx m a m' h)

end Secures

namespace Calls

theorem setFrame {f : Unit → Exec Control} {fr : Option Nat}
    (hf : Calls b (f ()) p { m with context.frame := fr }) : Calls b (Exec.setFrame fr >>= f) p m :=
  .bind fun _ _ h => by
    cases h
    exact ⟨p, .of_eq rfl rfl rfl rfl rfl (.refl p), hf⟩

theorem frame? {f : Option Nat → Exec Control} (hf : Calls b (f m.context.frame) p m) :
    Calls b (Exec.frame? >>= f) p m := hf

theorem resize {f : Unit → Exec Control} {n : Int}
    (hf : ∀ s : Stack, s.len = n → Calls b (f ()) p { m with context.stack := s }) :
    Calls b (Exec.resize n >>= f) p m :=
  .bind fun _ _ h => by
    obtain ⟨s, rfl, hs⟩ := resize_ok h
    exact ⟨p, .of_eq rfl rfl rfl rfl rfl (.refl p), hf s hs⟩

/-- The stack is cut, and that is it. -/
theorem cut (n : Int) (r : Except Failure Value) (hp : m.context.mark.cut n = p) :
    Calls b (do
      Exec.resize n
      return .deliver r) p m :=
  .resize fun s hs => .deliver r (by
    subst hp hs
    exact .refl _)

end Calls

/-! ## Steady computations -/

theorem push_stays (v : Value) : (push v).Stays :=
  stays_of_keeping 0 fun m => (Steady.logic m).push trivial

theorem stack_stays : stack.Stays :=
  stays_of_keeping 0 fun m => (Steady.logic m).stack

theorem lift_stays (x : Except Defect α) : (liftM x : Exec α).Stays := by
  intro m a m' h
  obtain ⟨-, rfl⟩ := lift_ok h
  exact .refl m'

theorem updateStack_stays (f : Stack → Except Defect Stack) : (updateStack f).Stays := by
  intro m u m' h
  obtain ⟨s, _, hs, h₁⟩ := exists_of_bind h
  cases hs
  obtain ⟨t, _, ht, h₂⟩ := exists_of_bind h₁
  obtain ⟨-, rfl⟩ := lift_ok ht
  cases h₂
  exact .of_stack _ rfl rfl rfl rfl

theorem resize_stays (n : Int) : (resize n).Stays :=
  stays_of_keeping 0 fun m => (Steady.logic m).resize n

theorem alloc_stays {o : Object} (ho : o.isPlain = true) : (alloc o).Stays :=
  stays_of_keeping 0 fun m => (Steady.logic m).alloc ho fun _ => (Known.all_anything 0).object _ o

theorem frameValue_stays : frameValue.Stays := stays_of_keeping 0 fun m => (Steady.logic m).frameValue

theorem envAt_stays (v : Value) : (envAt v).Stays := stays_of_keeping 0 fun m => (Steady.logic m).envAt trivial

theorem sequence_stays (fn : FnId) : (sequence fn).Stays := stays_of_keeping 0 fun m => (Steady.logic m).sequence fn

theorem sameFrame_stays (target : Value) (frame : Nat) : (sameFrame target frame).Stays :=
  stays_of_keeping 0 fun m => (Steady.logic m).sameFrame target frame

theorem collect_stays : collect.Stays := stays_of_keeping 0 fun m => Steady.collect m

theorem safepoint_stays : safepoint.Stays := by
  refine stays_of_keeping (R := Same (.anything 0) fun _ => True) 0 fun m =>
    (Steady.logic m).look (fun _ _ => rfl) fun _ _ => ?_
  dsimp only
  split
  · exact (Steady.logic m).forget (Steady.collect m)
  · exact (Steady.logic m).ret trivial

/-! ## Activations -/

variable {a : Activation}

theorem leave_calls (a : Activation) (r : Except Failure Value) (hp : a.left m.context.mark = p) :
    Calls b (leave a r) p m := by
  have left (r : Except Failure Value) (m : Machine) (hp : a.left m.context.mark = p) : Calls b (do
      setFrame a.caller
      resize a.height
      return .deliver r) p m := .setFrame (.cut _ _ hp)
  unfold leave
  dsimp only
  split
  · split
    · refine .after (sameFrame_stays _ _) fun same m₁ h₁ => ?_
      rw [← h₁] at hp
      split
      · exact left _ m₁ hp
      · exact left _ m₁ hp
    · exact left _ m hp
  · exact left _ m hp

theorem Calls.exec (a : Activation) (pc : Int) (hp : a.left m.context.mark = p) (hf : m.context.frame = some a.frame) :
    Calls b (return .exec a pc) p m :=
  .ready (hp ▸ .refl _) hf

theorem raise_calls (a : Activation) (pc : Int) (f : Failure) (hp : a.left m.context.mark = p)
    (hf : m.context.frame = some a.frame) : Calls b (raise a pc f) p m := by
  unfold raise
  split
  · refine .after (resize_stays _) fun _ m₁ h₁ => ?_
    refine .after (alloc_stays rfl) fun e m₂ h₂ => ?_
    refine .after (push_stays _) fun _ m₃ h₃ => ?_
    have h := h₃.trans (h₂.trans h₁)
    exact .exec a _ (h ▸ hp) ((congrArg Mark.frame h).trans hf)
  · exact leave_calls a _ hp

theorem fallOff_calls (a : Activation) (hp : a.left m.context.mark = p) : Calls b (fallOff a) p m := by
  refine .after (stays_of_keeping 0 fun m => (Steady.logic m).height) fun h m₁ h₁ => ?_
  rw [← h₁] at hp
  split
  · refine .after stack_stays fun s m₂ h₂ => ?_
    refine .after (lift_stays _) fun v m₃ h₃ => ?_
    exact leave_calls a _ (h₃.trans h₂ ▸ hp)
  · exact leave_calls a _ hp

/-- What is true of the calls that instructions wait for. -/
def Requests (_ : Known) (x : Exec Control) : Prop := ∀ (b : Bool) (m : Machine), Calls b x m.context.mark m

theorem calling_requests : Logic.Calling Requests where
  call _ _ _ _ _ := .ready ⟨.inl rfl, rfl, rfl⟩ trivial
  yield _ _ _ := .ready ⟨.inl rfl, rfl, rfl⟩ trivial
  direct _ _ m := callDirect_calls _ _ _ m.context.exactMark_meets
  operator _ _ _ _ := sendOperatorOn _ _ _ _ rfl
  negative _ _ _ := sendOn _ _ _ _ _ rfl

theorem conclude_calls (a : Activation) (pc next : Int) {e : Effect} {K : Known} (he : Logic.Leads Requests K e)
    (hp : a.left m.context.mark = p) (hf : m.context.frame = some a.frame) :
    Calls b (conclude a pc next e) p m := by
  cases e with
  | next => exact .exec a _ hp hf
  | jump d => exact .exec a _ hp hf
  | leave r => exact leave_calls a r hp
  | wait pending call => exact .pushKont (q := m.context.mark) hf (hp ▸ .refl _) (fun _ h => nomatch h) (he b _)

theorem exec_calls (a : Activation) (pc : Int) (hp : a.left m.context.mark = p)
    (hf : m.context.frame = some a.frame) : Calls b (exec a pc) p m := by
  unfold exec
  split
  · exact fallOff_calls a hp
  split
  · intro _ c m' h
    cases h
  extract_lets byte
  split
  · intro _ c m' h
    cases h
  rename_i op _
  by_cases hop : op = .jmpBack
  · refine Eq.subst (motive := fun x => Calls b x p m) (jumpBack_eq (s := ⟨a, pc.toNat, op⟩) hop pc _).symm ?_
    refine .after (stays_of_keeping 0 fun m => (Steady.logic m).i32 _ 1) fun d m₁ h₁ => ?_
    refine .after safepoint_stays fun _ m₂ h₂ => ?_
    have h := h₂.trans h₁
    exact .exec a _ (h ▸ hp) ((congrArg Mark.frame h).trans hf)
  · refine .bind fun r m₁ h => ?_
    have hperform := (Steady.logic m).perform (K := .anything 1) (s := ⟨a, pc.toNat, op⟩) calling_requests
      ⟨trivial, fun _ _ _ => trivial, fun _ _ _ => trivial, fun _ _ _ _ _ => trivial, Nat.one_pos⟩ hop
    obtain ⟨hs, K, hK⟩ := steady_of_keeping hperform h
    rw [← hs.mark] at hp
    rw [← hs.frame] at hf
    refine ⟨p, .of_steady hs, ?_⟩
    cases r with
    | ok e => exact conclude_calls a pc _ hK hp hf
    | error f => exact raise_calls a pc f hp hf

/-! ## Entering code, builtins and blocks -/

theorem invoke_calls (fn : FnId) (seq : Code.Sequence) (self : Value) (low argc : Int) (kw : Value)
    (blk : Option Block) (outer : Value) (asBlock : Bool) (hp : m.context.mark.cut (low - 1) = p) :
    Calls b (invoke fn seq self low argc kw blk outer asBlock) p m := by
  have bound : ((if asBlock then bindBlock else bindMethod) seq low argc kw blk).run.Stays := by
    refine stays_of_keeping (R := Known.outcome fun _ _ => True) 0 fun m => ?_
    have hb : (Known.anything 0).blockArg blk := maybe_all (Known.all_anything _).block blk
    split
    · exact (Steady.logic m).bindBlock seq low argc trivial hb
    · exact (Steady.logic m).bindMethod seq low argc trivial hb
  refine .after bound fun r m₁ h₁ => ?_
  cases r with
  | error f => exact .cut _ _ (h₁ ▸ hp)
  | ok _ =>
    rw [← h₁] at hp
    refine .frame? ?_
    refine .after frameValue_stays fun callerWord m₂ h₂ => ?_
    refine .after (push_stays _) fun _ m₃ h₃ => ?_
    refine .after stack_stays fun s m₄ h₄ => ?_
    have h := h₄.trans (h₃.trans h₂)
    extract_lets frame env lambda enter
    have entered (method : Value) (m : Machine) (hm : m.context.mark = m₁.context.mark) :
        Calls b (enter method) p m := by
      refine .after (push_stays _) fun _ m₅ h₅ => ?_
      refine .after (push_stays _) fun _ m₆ h₆ => ?_
      refine .after (lift_stays _) fun w m₇ h₇ => ?_
      refine .after (push_stays _) fun _ m₈ h₈ => ?_
      refine .after (push_stays _) fun _ m₉ h₉ => ?_
      refine .after (push_stays _) fun _ m₁₀ h₁₀ => ?_
      refine .after (push_stays _) fun _ m₁₁ h₁₁ => ?_
      refine .after (push_stays _) fun _ m₁₂ h₁₂ => ?_
      refine .after (push_stays _) fun _ m₁₃ h₁₃ => ?_
      refine .setFrame (.after safepoint_stays fun _ m₁₄ h₁₄ => ?_)
      have pushed := h₁₃.trans (h₁₂.trans (h₁₁.trans (h₁₀.trans (h₉.trans (h₈.trans (h₇.trans (h₆.trans h₅)))))))
      refine .exec _ _ ?_ (congrArg Mark.frame h₁₄)
      rw [← hp, ← hm, ← pushed, h₁₄]
      exact congrArg (Mark.mk _ · m₁₃.context.temps) (congrArg Mark.frame (pushed.trans hm)).symm
    split
    · exact entered _ m₄ h
    · refine .after (envAt_stays _) fun e m₅ h₅ => ?_
      exact .after (stays_of_keeping 0 fun m => (Steady.logic m).method (by cases e <;> trivial)) fun method m₆ h₆ =>
        entered method m₆ (h₆.trans (h₅.trans h))

theorem callNative_calls (body : ProcBody) (args : List Value) (hp : m.context.mark = p) :
    Calls true (callNative body args) p m := by
  cases body with
  | host name => exact .ready (hp ▸ m.context.exactMark_meets) trivial
  | send name =>
    cases args with
    | nil => exact .failure _ hp
    | cons receiver args => exact sendOn _ _ _ _ _ hp
  | emit => exact .after (pack_stays _) fun v m₁ h₁ => suspend_calls v (h₁.trans hp)
  | code fn =>
    intro _ c m' h
    cases h

theorem enterBlock_calls (blk : Block) (base argc : Int) (hp : m.context.mark.cut (base - 1) = p) :
    Calls true (enterBlock blk base argc) p m := by
  cases blk with
  | literal fn frame =>
    refine .after (sequence_stays fn) fun seq m₁ h₁ => ?_
    refine .after (envAt_stays _) fun e m₂ h₂ => ?_
    refine .after (stays_of_keeping 0 fun m => (Steady.logic m).self (by cases e <;> trivial)) fun self m₃ h₃ => ?_
    refine .after (updateStack_stays _) fun _ m₄ h₄ => ?_
    exact invoke_calls _ _ _ _ _ _ _ _ _ (h₄.trans (h₃.trans (h₂.trans h₁)) ▸ hp)
  | proc v =>
    refine .after (stays_of_keeping 0 fun m => (Steady.logic m).asProc? trivial) fun r m₁ h₁ => ?_
    rw [← h₁] at hp
    cases r with
    | none => exact .cut _ _ hp
    | some pr =>
      dsimp only
      split
      · refine .after (sequence_stays _) fun seq m₂ h₂ => ?_
        refine .after (updateStack_stays _) fun _ m₃ h₃ => ?_
        exact invoke_calls _ _ _ _ _ _ _ _ _ (h₃.trans h₂ ▸ hp)
      · refine .after stack_stays fun s m₂ h₂ => ?_
        refine .after (lift_stays _) fun args m₃ h₃ => ?_
        rw [← h₃.trans h₂] at hp
        exact .pushKont (q := m₃.context.mark) trivial (hp ▸ .refl _) (fun _ h => nomatch h) (callNative_calls _ _ rfl)
  | symbol name =>
    unfold enterBlock
    dsimp only
    split
    · exact .cut _ _ hp
    refine .after (stays_of_keeping 0 fun m => (Steady.logic m).forget ((Steady.logic m).takeFromStack fun s hs => Logic.gives_remove hs _)) fun _ m₁ h₁ => ?_
    refine .after stack_stays fun s m₂ h₂ => ?_
    refine .after (lift_stays _) fun receiver m₃ h₃ => ?_
    refine .after (classOf_stays _) fun cls m₄ h₄ => ?_
    refine .after (findMethod_stays _ _) fun f m₅ h₅ => ?_
    rw [← h₅.trans (h₄.trans (h₃.trans (h₂.trans h₁)))] at hp
    cases f with
    | some fn => exact .ready (hp ▸ .refl _) trivial
    | none =>
      refine .resize fun s hs => ?_
      refine .still (noMethod_stays _ _) (kept_noMethod _ _) fun f m₆ h₆ => .deliver _ ?_
      rw [h₆, ← hp, ← hs]
      exact .refl _

/-- A builtin is entered with its frame left to be dropped, or its arguments are refused. -/
def Admits (m : Machine) (p : Mark) : Except Failure (List Value) → Machine → Prop
  | .error _, m' => m.Steady m' ∧ m'.context.exactMark = p
  | .ok _, m' => m.Defers p m' m'.context.mark

theorem enterBuiltin_ends (arity : Arity) (self : Value) (base argc : Int) (kw : Value) (blk : Option Block)
    (hp : m.context.mark.cut (base - 1) = p) : Secures (enterBuiltin arity self base argc kw blk) m (Admits m p) := by
  unfold enterBuiltin
  extract_lets count
  have counted (argc : Int) (m₁ : Machine) (h₁ : m.Steady m₁) : Secures (count argc) m₁ (Admits m p) := by
    refine .go (stays_of_keeping 0 fun m => (Steady.logic m).checkArity _ _) fun r m₂ h₂ => ?_
    have h := h₁.trans h₂
    cases r with
    | error f =>
      refine .bind fun _ m' hr => .pure ?_
      obtain ⟨s, rfl, hs⟩ := resize_ok hr
      refine ⟨h.trans (.of_stack s rfl rfl rfl rfl), ?_⟩
      rw [← hp, ← h.mark, ← hs]
      rfl
    | ok _ =>
      refine .bind fun caller m₃ h₃ => ?_
      cases h₃
      refine .go frameValue_stays fun callerWord m₄ h₄ => ?_
      refine .go (push_stays _) fun _ m₅ h₅ => ?_
      refine .go stack_stays fun s m₆ h₆ => ?_
      refine .go (push_stays _) fun _ m₇ h₇ => ?_
      refine .go (push_stays _) fun _ m₈ h₈ => ?_
      refine .go (lift_stays _) fun w m₉ h₉ => ?_
      refine .go (push_stays _) fun _ m₁₀ h₁₀ => ?_
      have pushed := h.trans (h₄.trans (h₅.trans (h₆.trans (h₇.trans (h₈.trans (h₉.trans h₁₀))))))
      refine .bind fun _ m₁₁ h₁₁ => ?_
      cases h₁₁
      extract_lets enter
      have entered (guarded : Bool) (m' : Machine) (hd : m.Defers p m' p)
          (hk : (Kont.native m₂.context.frame (base - 1) guarded).after m'.context.mark = p) : Secures (enter guarded) m' (Admits m p) := by
        refine .bind fun _ m₁₁ h₁₁ => ?_
        cases h₁₁
        refine .go stack_stays fun s m₁₂ h₁₂ => ?_
        refine .go (lift_stays _) fun args m₁₃ h₁₃ => .pure ?_
        have h := h₁₂.trans h₁₃
        have hn : m'.Defers p { m' with context.konts := .native m₂.context.frame (base - 1) guarded :: m'.context.konts }
            m'.context.mark := .of_kont trivial (hk ▸ .refl _) fun _ h => nomatch h
        exact (hd.trans hn).trans (h.mark ▸ .of_steady h)
      have framed : m.Defers p m₁₀ p := .of_steady pushed
      have left : Mark.mk (some (base - 1)) m₂.context.frame m₁₀.context.temps = p :=
        (congrArg₂ (Mark.mk _) h.frame pushed.temps).trans hp
      split
      · refine .bind fun _ m₁₁ h₁₁ => ?_
        cases h₁₁
        exact entered true _ (framed.trans (.of_eq rfl rfl rfl rfl rfl (.refl _))) left
      · exact entered false _ (framed.trans (.of_eq rfl rfl rfl rfl rfl (.refl _))) left
  split
  · exact counted argc m (.refl m)
  · exact .go (push_stays _) fun _ m₁ h₁ => counted _ m₁ h₁

theorem call_calls (fn : FnId) (self : Value) (base argc : Int) (kw : Value) (blk : Option Block)
    (hp : m.context.mark.cut (base - 1) = p) : Calls true (call fn self base argc kw blk) p m := by
  refine .after (stays_of_keeping 0 fun m => (Steady.logic m).function fn) fun f m₁ h₁ => ?_
  rw [← h₁] at hp
  extract_lets attr
  have attrDone (ivar : Ident) (write : Bool) : Calls true (attr ivar write) p m₁ := by
    refine .after (stays_of_keeping 0 fun m => (Steady.logic m).callAttr _ _ _ _ _ trivial) fun r m₂ h₂ => ?_
    exact .cut _ _ (h₂ ▸ hp)
  split
  · exact invoke_calls _ _ _ _ _ _ _ _ _ hp
  · rename_i b _
    refine .bind fun r m₂ h₂ => ?_
    have he := enterBuiltin_ends _ _ _ _ _ _ hp r m₂ h₂
    cases r with
    | error e => exact ⟨p, .of_steady he.1, .deliver _ (he.2 ▸ .refl _)⟩
    | ok args =>
      refine ⟨_, he, ?_⟩
      by_cases hb : b = .collect
      · subst hb
        exact .tryGo collect_stays fun _ _ h => .value _ h
      · exact builtin_calls b hb self args blk rfl
  · exact attrDone _ _
  · exact attrDone _ _

/-! ## Continuations -/

theorem convertedText_stays (v converted : Value) : (convertedText v converted).Stays :=
  stays_of_keeping 0 fun m => (Steady.logic m).convertedText trivial trivial

theorem resumeActivation_calls (a : Activation) (pc next : Int) (pending : Pending) (r : Except Failure Value)
    (hp : a.left m.context.mark = p) (hf : m.context.frame = some a.frame) :
    Calls b (resumeActivation a pc next pending r) p m := by
  have on (q : Machine) (hq : q.context.mark = m.context.mark) (next : Int) : Calls b (return .exec a next) p q :=
    .exec a next (hq ▸ hp) ((congrArg Mark.frame hq).trans hf)
  have raised (q : Machine) (hq : q.context.mark = m.context.mark) (f : Failure) : Calls b (raise a pc f) p q :=
    raise_calls a pc f (hq ▸ hp) ((congrArg Mark.frame hq).trans hf)
  unfold resumeActivation
  split
  · dsimp only
    split
    · refine .after (sameFrame_stays _ _) fun same m₁ h₁ => ?_
      split
      · split
        · exact .after (push_stays _) fun _ m₂ h₂ => on m₂ (h₂.trans h₁) _
        · exact on m₁ h₁ _
      · exact raised m₁ h₁ _
    · exact raised m rfl _
  · exact raised m rfl _
  · exact .after (push_stays _) fun _ m₁ h₁ => on m₁ h₁ _
  · exact .after (push_stays _) fun _ m₁ h₁ => on m₁ h₁ _
  · exact on m rfl _
  · split
    · exact on m rfl _
    · exact .after (demand_stays _) fun _ m₁ h₁ => on m₁ h₁ _

theorem onValue_calls {r : Except Failure Value} {f : Value → Exec Control} (hp : m.context.mark = p)
    (hf : ∀ v, Calls b (f v) p m) : Calls b (onValue r f) p m := by
  cases r with
  | ok v => exact hf v
  | error e => exact .failure _ hp

theorem pull_after (d : Drive) (x : Context) : (Kont.pull d).after x.mark = (Kont.pull d).after x.exactMark := by
  unfold Kont.after
  dsimp only
  split <;> rfl

theorem resumeKont_calls (k : Kont) (r : Except Failure Value) (hk : k.Accepts m.context.exactMark)
    (hd : ∀ id ∈ drivenFibers [k], id < m.fibers.size) :
    Calls true (resumeKont k r) (k.after m.context.exactMark) m := by
  cases k with
  | activation a pc next pending => exact resumeActivation_calls a pc next pending r rfl hk
  | native caller height guarded =>
    refine .setFrame (.resize fun s hs => ?_)
    subst hs
    cases guarded with
    | true => exact .release (.deliver r (.refl _))
    | false => exact .deliver r (.refl _)
  | drop height => exact .cut _ _ rfl
  | boundary => exact .deliver _ (.refl _)
  | negate => cases r <;> exact .deliver _ (.refl _)
  | each self blk i => exact onValue_calls rfl fun _ => eachFrom_calls _ _ _ rfl
  | map self blk out i =>
    cases r with
    | ok v =>
      refine .after (stays_of_keeping 0 fun m => (Steady.logic m).appendElem trivial trivial) fun _ m₁ h₁ => ?_
      exact mapFrom_calls _ _ _ _ ((congrArg (Kont.map self blk out i).after h₁).trans rfl)
    | error f => exact .release (.failure _ rfl)
  | times count i self blk => exact onValue_calls rfl fun _ => timesFrom_calls _ _ _ _ rfl
  | loop blk =>
    cases r with
    | ok v => exact loopAgain_calls _ rfl
    | error f =>
      unfold resumeKont
      dsimp only
      split
      · exact .value _ rfl
      · exact .failure _ rfl
  | construct obj => exact .release (onValue_calls rfl fun _ => .value _ rfl)
  | puts v rest =>
    refine onValue_calls rfl fun t => ?_
    refine .after (convertedText_stays _ _) fun s m₁ h₁ => ?_
    exact .after (write_stays _) fun _ m₂ h₂ => putsAll_calls _ (h₂.trans h₁)
  | append self v =>
    refine onValue_calls rfl fun t => ?_
    exact .after (convertedText_stays _ _) fun s m₁ h₁ => appendText_calls _ _ h₁
  | equal self other n i =>
    refine onValue_calls rfl fun v => ?_
    split
    · exact equalFrom_calls _ _ _ _ rfl
    · exact .value _ rfl
  | pull d =>
    cases r with
    | ok v => exact feed_calls d v (hd d.fiber List.mem_cons_self) (pull_after d _)
    | error f =>
      refine endDrive_calls d fun m' h => ?_
      have hp := h.trans (pull_after d m.context)
      split
      · split
        · exact .value _ hp
        · exact .value _ hp
      · exact .failure _ hp
  | feed d =>
    cases r with
    | ok v =>
      unfold resumeKont
      dsimp only
      split
      · refine .go (stays_of_keeping 0 fun m => (Steady.logic m).appendElem trivial trivial) fun _ m₁ _ hs => ?_
        exact pull_calls d ((hd d.fiber List.mem_cons_self).trans_le hs.size)
          ((congrArg _ hs.mark).trans (pull_after d _))
      · exact pull_calls d (hd d.fiber List.mem_cons_self) (pull_after d _)
    | error f => exact endDrive_calls d fun m' h => .failure _ (h.trans (pull_after d m.context))
  | fiberBody => exact finishFiber_calls r
  | fiberIteration =>
    cases r with
    | ok v => exact finishFiber_calls (.error { cause := .exhausted, value := v })
    | error f => exact finishFiber_calls (.error f)

/-! ## Steps -/

/-- What a step comes to when it is not the outcome of a call that is handed on. -/
theorem step_calls {c : Control} (hn : m.Numbered) (hc : c.Fits m.context) (hd : ∀ r, c ≠ .deliver r) :
    Secures (step c) m fun
      | .inl c', m' => m.Goes (c.mark m.context) true c' m'
      | .inr _, m' => m' = m := by
  cases c with
  | exec a pc => exact .bind fun c' m' h => .pure (exec_calls a pc rfl hc hn c' m' h)
  | call fn self base argc kw blk => exact .bind fun c' m' h => .pure (call_calls fn self base argc kw blk rfl hn c' m' h)
  | yield blk base argc => exact .bind fun c' m' h => .pure (enterBlock_calls blk base argc rfl hn c' m' h)
  | deliver r => exact absurd rfl (hd r)
  | host h => exact .pure rfl

/-- What a step comes to when it hands an outcome to a continuation. -/
theorem step_deliver {r : Except Failure Value} {k : Kont} {rest : List Kont} (hn : m.Numbered)
    (hk : m.context.konts = k :: rest) (ha : k.Accepts m.context.exactMark) : Secures (step (.deliver r)) m fun
      | .inl c', m' => { m with context.konts := rest }.Goes (k.after m.context.exactMark) true c' m'
      | .inr _, _ => False := by
  intro o m' h
  obtain ⟨_, _, hg, h₁⟩ := exists_of_bind h
  cases hg
  obtain ⟨hn, hd⟩ := hn.popKont hk
  rw [hk] at h₁
  obtain ⟨_, _, hm, h₂⟩ := exists_of_bind h₁
  cases hm
  obtain ⟨c, _, hc, h₃⟩ := exists_of_bind h₂
  cases h₃
  exact resumeKont_calls (m := { m with context.konts := rest }) k r ha hd hn c m' hc

end Exec

end RubyMachine
