import RubyMachine.Proofs.Threads.Balance

/-! How calls come back to those who made them, and how frames catch failures. -/

namespace RubyMachine

open Exec Machine

variable {v : Visit} {W W' : List Context} {p : Mark} {m m' m₁ : Machine} {c c' : Control} {id : Nat} {b : Bool}

/-! ## The root -/

/-- The thread of no fiber is among those that run or wait. -/
def Machine.Rooted (m : Machine) : Prop := none ∈ m.chain.map Context.fiber

namespace Machine.Rooted

theorem enters (hr : m.Rooted) (h : m.Enters id m') : m'.Rooted := by
  have hchain : m'.chain = m'.context :: m.chain := congrArg (m'.context :: ·) h.waiting
  rw [Rooted, hchain, List.map_cons]
  exact List.mem_cons_of_mem _ hr

theorem leaves (hr : m.Rooted) (h : m.Leaves id m') : m'.Rooted := by
  have hchain : m.chain = m.context :: m'.chain := congrArg (m.context :: ·) h.waiting
  rw [Rooted, hchain, List.map_cons, List.mem_cons, h.fiber] at hr
  exact hr.resolve_left (Option.some_ne_none id).symm

theorem defers {q : Mark} (hr : m.Rooted) (h : m.Defers p m' q) : m'.Rooted := by
  rwa [Rooted, h.chain]

theorem goes (hr : m.Rooted) (h : m.Goes p b c m') : m'.Rooted := by
  cases h with
  | on hd _ => exact hr.defers hd
  | enter hd he hd' _ => exact ((hr.defers hd).enters he).defers hd'
  | suspend hd hl => exact (hr.defers hd).leaves hl
  | finish hd hl _ => exact (hr.defers hd).leaves hl

theorem next (hr : m.Rooted) (hm : m.Ordered) (hc : m.Ready c) (h : Next c m c' m') : m'.Rooted := by
  rcases h.goes hm.numbered hc.fits with hg | ⟨r, k, rest, rfl, hk, hg⟩
  · exact hr.goes hg
  · obtain ⟨q, ho⟩ := hc.owes
    rw [hk] at ho
    have popped : { m with context.konts := rest }.Rooted := hr
    exact popped.goes (hg ho.1)

end Machine.Rooted

theorem Underway.rooted (h : Underway c m) : m.Rooted := by
  induction h with
  | blank options h => exact List.mem_cons_self
  | boot options h =>
    obtain ⟨-, -, -, hs, -⟩ := (Steady.logic (.blank options)).boot (K := .anything 1) Nat.one_pos (Known.all_anything 1) _ (.refl _)
    exact Rooted.defers (p := (Machine.blank options).context.mark) (m := .blank options) List.mem_cons_self (.of_steady hs)
  | next hr hn ih => exact ih.next hr.ordered.1 hr.ordered.2 hn
  | restart h _ ih => exact ih

/-- Nothing is ever below the root but what was there. -/
theorem Visit.Run.root (hr : v.Run W c m W' c' m') (hm : m.Ordered) (hc : m.Ready c) (hroot : m.Rooted) (hv : v.fiber = none) :
    W' = W ∧ m'.Ordered ∧ m'.Ready c' ∧ m'.Rooted := by
  induction hr with
  | refl => exact ⟨rfl, hm, hc, hroot⟩
  | next _ _ hx ih =>
    obtain ⟨rfl, hm₁, hc₁, hroot₁⟩ := ih hm hc hroot
    obtain ⟨hm₂, hc₂⟩ := hm₁.next hc₁ hx
    refine ⟨?_, hm₂, hc₂, hroot₁.next hm₁ hc₁ hx⟩
    rw [Visit.waiters, hv]
    exact if_pos hroot₁

/-! ## Failures that are caught -/

/-- A failure comes up at `pc` in an activation: its instruction fails, or a call that it made. -/
inductive Fails : Control → Machine → Activation → Int → Failure → Prop where
  | instruction {a : Activation} {pc : Int} {op : Code.Opcode} {f : Failure} {m m₁ : Machine} : 0 ≤ pc → pc < a.seq.code.size →
      Code.Opcode.ofByte? (a.seq.code.getD pc.toNat 0) = some op →
      (Site.perform ⟨a, pc.toNat, op⟩).run m = .ok (.error f) m₁ → Fails (.exec a pc) m a pc f
  | call {a : Activation} {pc next : Int} {pending : Pending} {f : Failure} {rest : List Kont} {m : Machine} :
      m.context.konts = .activation a pc next pending :: rest → Fails (.deliver (.error f)) m a pc f

variable {a : Activation} {pc dest : Int} {f : Failure}

/-- A frame is cut to its own words and the exception. -/
structure Caught (a : Activation) (f : Failure) (m : Machine) : Prop where
  len : (m.context.stack.len : Int) = a.frame + Frame.words + 1
  frame : m.context.frame = some a.frame
  exception : ∃ v, m.context.stack.top = .ok v ∧ deref v m = .ok (.exception f) m

theorem Stack.top_append (s : Stack) (v : Value) : (s.append v).top = .ok v := by
  have hlen : (s.append v).len = s.len + 1 := rfl
  have hslots : (s.append v).slots = store s.slots s.len v := rfl
  rw [top, hlen, if_neg (Nat.succ_ne_zero _), Nat.add_sub_cancel, hslots, getD_store, if_pos rfl]

theorem raise_caught (hi : m.heap.Inv) (hf : m.context.frame = some a.frame) (hh : handler? a.seq pc f = some dest) :
    Secures (raise a pc f) m fun c m' => c = .exec a dest ∧ Caught a f m' := by
  unfold raise
  rw [hh]
  refine .bind fun _ m₁ h₁ => ?_
  obtain ⟨s, rfl, hs⟩ := resize_ok h₁
  refine .bind fun v m₂ h₂ => ?_
  rcases alloc_apply (m := { m with context.stack := s }) hi (.exception f) with ⟨ref, h', hrun, hv⟩ | ⟨-, hrun⟩
  · cases hrun.symm.trans h₂
    refine .bind fun _ m₃ h₃ => .pure ⟨rfl, ?_⟩
    cases push_ok h₃
    refine ⟨?_, hf, v, Stack.top_append _ _, deref_apply hv.isRef hv.read⟩
    show ((s.len + 1 : Nat) : Int) = _
    omega
  · cases hrun.symm.trans h₂

theorem handler?_isControl (hh : handler? a.seq pc f = some dest) : f.kind.isControl = false := by
  unfold handler? at hh
  split at hh
  · cases hh
  · rename_i h
    exact Bool.eq_false_of_not_eq_true fun hc => h (by rw [hc, Bool.true_or])

/-- Only a block that ends its send is not handed to the frame's handlers. -/
theorem resumeActivation_raise (next : Int) (pending : Pending) (hf : f.kind.isControl = false) :
    resumeActivation a pc next pending (.error f) = raise a pc f := by
  cases pending with
  | send hasBlock discard =>
    cases hasBlock with
    | true =>
      unfold resumeActivation
      have hk : f.kind ≠ .blockReturn := fun h => by
        rw [h] at hf
        cases hf
      dsimp only
      rw [if_neg hk]
    | false => rfl
  | push => rfl
  | branch dest => rfl

/-- An instruction that fails does so in its own frame. -/
theorem perform_failed {s : Site} (hm : m.Sound) (h : s.perform.run m = .ok (.error f) m₁) :
    m₁.heap.Inv ∧ m₁.context.frame = m.context.frame := by
  by_cases hop : s.op = .jmpBack
  · unfold Site.perform at h
    rw [hop] at h
    unfold Site.jump at h
    rw [hop] at h
    obtain ⟨_, _, _, h₁⟩ := exists_of_bind (f := fun d => do
      safepoint
      return (.ok (.jump d) : Except Failure Effect)) (x := s.i32 1) (by simpa only [run_liftM_bind, ExceptT.run_pure] using h)
    obtain ⟨_, _, _, h₂⟩ := exists_of_bind h₁
    cases h₂
  · have admits : (Known.anything 1).admits s :=
      ⟨trivial, fun _ _ _ => trivial, fun _ _ _ => trivial, fun _ _ _ _ _ => trivial, Nat.one_pos⟩
    have sound := hm.run (k := 1) (Sound.stable.logic.perform (K := .anything 1) calling_requests admits hop)
    rw [after_of_ok h] at sound
    have steady := ((Steady.logic m).perform (K := .anything 1) calling_requests admits hop)
    exact ⟨sound.heap, (steady_of_keeping steady h).1.frame⟩

theorem Fails.caught (hx : Fails c m a pc f) (hm : m.Sound) (hc : m.Ready c) (hh : handler? a.seq pc f = some dest) :
    Secures (step c) m fun o m' => o = .inl (.exec a dest) ∧ Caught a f m' := by
  cases hx with
  | @instruction _ _ op _ _ m₁ hlo hhi hop hp =>
    obtain ⟨hi, hframe⟩ := perform_failed hm hp
    refine .bind fun c₁ m₂ h => ?_
    unfold exec at h
    rw [if_neg (by omega), if_neg (by omega)] at h
    dsimp only at h
    rw [hop] at h
    dsimp only at h
    rw [bind_of_ok hp] at h
    obtain ⟨rfl, hcaught⟩ := raise_caught hi (hframe.trans hc.fits) hh c₁ m₂ h
    exact .pure ⟨rfl, hcaught⟩
  | @call _ _ next pending _ rest _ hk =>
    obtain ⟨_, ho⟩ := hc.owes
    rw [hk] at ho
    intro o m' h
    obtain ⟨_, _, hg, h₁⟩ := exists_of_bind h
    cases hg
    rw [hk] at h₁
    obtain ⟨_, _, hp, h₂⟩ := exists_of_bind h₁
    cases hp
    obtain ⟨c₁, _, hr, h₃⟩ := exists_of_bind h₂
    cases h₃
    have hr : resumeActivation a pc next pending (.error f) { m with context.konts := rest } = .ok c₁ m' := hr
    rw [resumeActivation_raise _ _ (handler?_isControl hh)] at hr
    obtain ⟨rfl, hcaught⟩ := raise_caught (m := { m with context.konts := rest }) hm.heap ho.1 hh c₁ m' hr
    exact ⟨rfl, hcaught⟩

/-! ## Calls that come back -/

/-- The slot that the stack is cut to when a call comes back: a function and a block have their receiver there, and the
host its own. -/
def Control.low? (x : Context) : Control → Option Int
  | .call _ _ base _ _ _ | .yield _ base _ => some (base - 1)
  | .host _ => some x.stack.len
  | .exec .. | .deliver _ => none

theorem Control.mark_of_low? {x : Context} {low : Int} (h : low ∈ c.low? x) : c.mark x = ⟨some low, x.frame, x.temps⟩ := by
  cases c with
  | call | yield | host => cases h; rfl
  | exec | deliver => cases h

/-- Calls of functions and blocks cut the stack to the slot of their receiver, and those by the host leave the stack as
long as it was. The frame and the values held are as they were; the same thread goes on, above the threads that it
ran above when it last came to run. A frame that catches a failure is cut to its own words and the exception. -/
theorem Underway.calls_balanced (h : Underway c m) :
    (∀ low ∈ c.low? m.context, ∀ W c' m', (c.visit m).Run m.waiting c m W c' m' → (c.visit m).Returned c' m' →
      (m'.context.stack.len : Int) = low ∧ m'.context.frame = m.context.frame ∧ m'.context.temps = m.context.temps ∧
      m'.waiting = W ∧ (m.context.fiber = none → W = m.waiting)) ∧
    ∀ a pc f dest, Fails c m a pc f → handler? a.seq pc f = some dest →
      Secures (step c) m fun o m' => o = .inl (.exec a dest) ∧ Caught a f m' := by
  obtain ⟨hm, hc⟩ := h.ordered
  refine ⟨fun low hlow W c' m' hr hret => ?_, fun a pc f dest hx hh => hx.caught h.sound hc hh⟩
  obtain ⟨hm', -, hd⟩ := hr.during hm hc (.start c m)
  obtain ⟨hmeets, hw⟩ := hd.returned hm' hret
  have hmark : (c.visit m).mark = ⟨some low, m.context.frame, m.context.temps⟩ := Control.mark_of_low? hlow
  rw [hmark] at hmeets
  have hlen : some low = some (m'.context.stack.len : Int) := hmeets.len.resolve_left (Option.some_ne_none low)
  exact ⟨(Option.some.inj hlen).symm, hmeets.frame, hmeets.temps, hw, fun hf => (hr.root hm hc h.rooted hf).1⟩

/-! ### Runs that are written down -/

/-- What comes next, as it can be asked for. -/
inductive Move where
  | step
  | enter (e : Entry)
  | back (h : HostCall)

namespace Move

/-- What a move comes to, if it can be made. -/
def apply (c : Control) (m : Machine) : Move → Option (Control × Machine)
  | .step =>
    match Exec.step c m with
    | .ok (.inl c') m' => some (c', m')
    | _ => none
  | .enter e =>
    match c, e.start m with
    | .host _, .ok c' m' => some (c', m')
    | _, _ => none
  | .back h =>
    match c with
    | .deliver _ => some (.host h, m)
    | _ => none

theorem next {x : Move} (h : x.apply c m = some (c', m')) : Next c m c' m' := by
  cases x with
  | step =>
    unfold apply at h
    dsimp only at h
    split at h
    · cases h
      exact .step ‹_›
    · cases h
  | enter e =>
    unfold apply at h
    dsimp only at h
    split at h
    · cases h
      exact .enter e ‹_›
    · cases h
  | back hc =>
    cases c with
    | deliver r =>
      cases h
      exact .back hc
    | _ => cases h

/-- What moves come to, one after the other. -/
def all : List Move → Control → Machine → Option (Control × Machine)
  | [], c, m => some (c, m)
  | x :: xs, c, m => (x.apply c m).bind fun (c', m') => all xs c' m'

theorem underway {xs : List Move} (hr : Underway c m) (h : all xs c m = some (c', m')) : Underway c' m' := by
  induction xs generalizing c m with
  | nil =>
    cases h
    exact hr
  | cons x xs ih =>
    obtain ⟨⟨c₁, m₁⟩, hx, h⟩ := Option.bind_eq_some_iff.mp h
    exact ih (hr.next (next hx)) h

end Move

namespace Visit

/-- Something else than the outcome of the call comes next, as is seen from how much is left to be done. -/
def isOpen (v : Visit) (c : Control) (m : Machine) : Bool :=
  match c with
  | .deliver _ => m.context.fiber != v.fiber || m.context.konts.length != v.konts.length
  | _ => true

theorem not_returned_of_isOpen (h : v.isOpen c m = true) : ¬v.Returned c m := by
  rintro ⟨⟨r, rfl⟩, hf, hk⟩
  simp [isOpen, hf, hk] at h

/-- Makes moves until the call returns, which it has to do after the last one. -/
def follow (v : Visit) : List Move → List Context → Control → Machine → Option (List Context × Control × Machine)
  | [], W, c, m => if v.isOpen c m then none else some (W, c, m)
  | x :: xs, W, c, m =>
    if v.isOpen c m then (x.apply c m).bind fun (c', m') => v.follow xs (v.waiters W m m') c' m' else none

theorem run_of_follow {xs : List Move} {W₀ : List Context} {c₀ : Control} {m₀ : Machine} (hr : v.Run W₀ c₀ m₀ W c m)
    (h : v.follow xs W c m = some (W', c', m')) : v.Run W₀ c₀ m₀ W' c' m' ∧ v.isOpen c' m' = false := by
  induction xs generalizing W c m with
  | nil =>
    unfold follow at h
    split at h
    · cases h
    · rename_i ho
      cases h
      exact ⟨hr, Bool.eq_false_of_not_eq_true ho⟩
  | cons x xs ih =>
    unfold follow at h
    split at h
    · rename_i ho
      obtain ⟨⟨c₁, m₁⟩, hx, h⟩ := Option.bind_eq_some_iff.mp h
      exact ih (hr.next (not_returned_of_isOpen ho) (Move.next hx)) h
    · cases h

/-- How much is left to be done tells whether a call has returned. -/
theorem During.returned_of_isOpen (hm : m.Ordered) (h : v.During W p m) (ho : v.isOpen c m = false) : v.Returned c m := by
  cases c with
  | deliver r =>
    simp only [isOpen, Bool.or_eq_false_iff, bne_eq_false_iff_eq] at ho
    obtain ⟨hf, hl⟩ := ho
    refine ⟨⟨r, rfl⟩, hf, ?_⟩
    obtain ⟨⟨-, ks, hk, -⟩, -⟩ := h.on_running hm hf
    rw [hk, List.length_append, Nat.add_eq_right, List.length_eq_zero_iff] at hl
    rw [hk, hl, List.nil_append]
  | _ => cases ho

end Visit

theorem Underway.follow {xs : List Move} (h : Underway c m)
    (hf : (c.visit m).follow xs m.waiting c m = some (W', c', m')) :
    (c.visit m).Run m.waiting c m W' c' m' ∧ (c.visit m).Returned c' m' := by
  obtain ⟨hm, hc⟩ := h.ordered
  obtain ⟨hr, ho⟩ := Visit.run_of_follow .refl hf
  obtain ⟨hm', -, hd⟩ := hr.during hm hc (.start c m)
  exact ⟨hr, hd.returned_of_isOpen hm' ho⟩

/-- The failure that comes up next, with the activation and where in it. -/
def Control.failing? (m : Machine) : Control → Option (Activation × Int × Failure)
  | .exec a pc =>
    if 0 ≤ pc ∧ pc < a.seq.code.size then
      match Code.Opcode.ofByte? (a.seq.code.getD pc.toNat 0) with
      | some op =>
        match (Site.perform ⟨a, pc.toNat, op⟩).run m with
        | .ok (.error f) _ => some (a, pc, f)
        | _ => none
      | none => none
    else none
  | .deliver (.error f) =>
    match m.context.konts with
    | .activation a pc _ _ :: _ => some (a, pc, f)
    | _ => none
  | _ => none

theorem Fails.of_failing? (h : c.failing? m = some (a, pc, f)) : Fails c m a pc f := by
  unfold Control.failing? at h
  split at h
  · split at h
    · rename_i hpc
      split at h
      · rename_i hop
        split at h
        · rename_i hp
          cases h
          exact .instruction hpc.1 hpc.2 hop hp
        · cases h
      · cases h
    · cases h
  · split at h
    · rename_i hk
      cases h
      exact .call hk
    · cases h
  · cases h

/-! ### A failure that is caught, and a fiber that others resume -/

/-- A host that asks for nothing. -/
def HostCall.idle : HostCall := ⟨"", false, .nil, [], none⟩

/-- Code that looks a constant up with something on the stack, and gives the failure when there is none. -/
def Code.lookUp : Code.Sequence where
  name := .none
  kind := .method
  code := #[Opcode.pushNil.byte, Opcode.getConstTop.byte, 0, 0, 0, 0, Opcode.ret.byte]
  handlers := [⟨.rescue, 0, 6, 6⟩]

namespace Machine

def withLookUp : Machine := after (addFunction (.ofSequence Code.lookUp)) (.blank {})

theorem underway_withLookUp : Underway (.host .idle) withLookUp :=
  .next (.blank {} .idle) (.tend {
    steady := .of_stack _ rfl rfl rfl rfl
    context := rfl
    sound := fun hm => hm.addFunction fun seq h => by
      cases h
      decide })

/-- The code is called, fails at its second instruction and gives the exception that it finds on the stack. -/
theorem calls_balanced_lookUp : ∃ c m a W c' m', Underway c m ∧
    (∃ f, Fails c m a 1 f ∧ Secures (step c) m fun o m' => o = .inl (.exec a 6) ∧ (m'.context.stack.len : Int) = a.frame + 9) ∧
    ((Control.host .idle).visit withLookUp).Run [] (.host .idle) withLookUp W c' m' ∧
    ((Control.host .idle).visit withLookUp).Returned c' m' ∧ m'.context.stack.len = 0 ∧ m'.waiting = [] := by
  have fails : ((Move.all [.enter (.method ⟨1⟩ .nil []), .step, .step] (.host .idle) withLookUp).any fun (c, m) =>
      (c.failing? m).any fun (a, pc, f) => pc = 1 ∧ handler? a.seq pc f = some 6) = true := by
    decide +kernel
  have returns : (((Control.host .idle).visit withLookUp).follow [.enter (.method ⟨1⟩ .nil []), .step, .step, .step, .step]
      [] (.host .idle) withLookUp).isSome = true := by
    decide +kernel
  obtain ⟨⟨c, m⟩, called, fails⟩ := (Option.any_eq_true _ _).mp fails
  obtain ⟨⟨a, pc, f⟩, failing, caught⟩ := (Option.any_eq_true _ _).mp fails
  obtain ⟨rfl, caught⟩ := of_decide_eq_true caught
  obtain ⟨⟨W, c', m'⟩, returns⟩ := Option.isSome_iff_exists.mp returns
  have arrived := Move.underway underway_withLookUp called
  obtain ⟨followed, back⟩ := underway_withLookUp.follow returns
  have returned := underway_withLookUp.calls_balanced.1 _ rfl W c' m' followed back
  refine ⟨c, m, a, W, c', m', arrived, ⟨f, .of_failing? failing, fun o m₁ h => ?_⟩, followed, back,
    Int.ofNat_inj.mp returned.1, returned.2.2.2.1.trans (returned.2.2.2.2 rfl)⟩
  obtain ⟨ho, hc⟩ := arrived.calls_balanced.2 a 1 f 6 (.of_failing? failing) caught o m₁ h
  exact ⟨ho, hc.len⟩

/-! ### A fiber that another one resumes -/

/-- Two fibers with a body that the host answers, a proc that suspends the fiber that calls it, and a way to resume
fibers. -/
def giveFibers : Exec Unit := do
  let _ ← addFunction { name := .none, body := .builtin .fiberResume, arity := .atLeast 0 }
  let _ ← alloc (.proc { body := .emit })
  let body ← newHostProc ""
  let _ ← newFiber body none
  let _ ← newFiber body none

theorem kept_giveFibers {P : Machine → Prop} (hP : Keeping.Stable P) : Keeping.Kept P giveFibers := by
  unfold giveFibers
  refine .bind (fun _ hm => hP.addFunction hm fun _ h => nomatch h) fun _ => ?_
  refine .bind (hP.alloc fun _ h => nomatch h) fun _ => .bind (hP.alloc fun _ h => nomatch h) fun body => ?_
  exact .bind (hP.newFiber _ _) fun _ => .bind (hP.newFiber _ _) fun _ => Keeping.kept_pure _

def withFibers : Machine := after giveFibers (.blank {})

set_option maxRecDepth 4000 in
theorem underway_withFibers : Underway (.host .idle) withFibers :=
  .next (.blank {} .idle) (.tend {
    steady := kept_giveFibers (Steady.stable _) _ (.refl _)
    context := rfl
    sound := kept_giveFibers Sound.stable _ })

/-- The proc that suspends. -/
def emitter : Value := Heap.firstRef 0

def firstFiber : Value := Heap.firstRef 2

def secondFiber : Value := Heap.firstRef 3

/-- The host resumes a fiber, which asks it in turn. -/
def resuming (fiber : Value) : List Move := [.enter (.method ⟨1⟩ fiber []), .step, .step]

/-- The host calls a proc in the first fiber, which suspends it. It goes on when the second fiber resumes it, and so
returns above a thread that did not run before. -/
theorem exists_chain_ne : ∃ h m W c m', Underway (.host h) m ∧
    ((Control.host h).visit m).Run m.waiting (.host h) m W c m' ∧ ((Control.host h).visit m).Returned c m' ∧
    m.chain.map Context.fiber = [some 0, none] ∧ m'.chain.map Context.fiber = [some 0, some 1, none] := by
  have ran : ((Move.all (resuming firstFiber) (.host .idle) withFibers).any fun
      | (.host h, m) => (((Control.host h).visit m).follow ([.enter (.block (some (.proc emitter)) []), .step, .step,
          .back .idle] ++ resuming secondFiber ++ [.enter (.method ⟨1⟩ firstFiber []), .step, .step, .step])
          m.waiting (.host h) m).any fun (_, _, m') => m.chain.map Context.fiber = [some 0, none] ∧
            m'.chain.map Context.fiber = [some 0, some 1, none]
      | _ => false) = true := by
    decide +kernel
  obtain ⟨⟨c, m⟩, entered, ran⟩ := (Option.any_eq_true _ _).mp ran
  have entered := Move.underway underway_withFibers entered
  cases c with
  | host h =>
    obtain ⟨⟨W, c', m'⟩, ran, chains⟩ := (Option.any_eq_true _ _).mp ran
    obtain ⟨followed, back⟩ := entered.follow ran
    exact ⟨h, m, W, c', m', entered, followed, back, of_decide_eq_true chains⟩
  | _ => cases ran

end Machine

end RubyMachine
