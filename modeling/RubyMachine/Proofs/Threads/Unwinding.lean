import RubyMachine.Proofs.Scope.Homes
import RubyMachine.Proofs.Threads.Accounts

/-! The signals of non-local exits on their way: everything that is left to be done hands them on, no handler takes them,
and they stop at one activation. That of a method takes a return that names it for its own value, and a send with a block
is ended by a break that names its frame. -/

namespace RubyMachine

open Exec

variable {m m' m₁ m₂ : Machine} {f : Failure} {a : Activation} {k : Kont} {ks above rest : List Kont} {n n' : Int} {i : Nat}

/-! ## Where frames and calls lie -/

/-- The frame lies below slot `n`, and what the activation gives back lies below the frame. -/
structure Activation.Lies (a : Activation) (n : Int) : Prop where
  bottom : 0 ≤ a.height
  height : a.height ≤ a.frame
  top : a.frame + 8 ≤ n

theorem Activation.Lies.height_le (h : a.Lies n) : a.height ≤ n := by
  have := h.height
  have := h.top
  omega

/-- A break ends the send. -/
def Pending.hasBlock : Pending → Bool
  | .send hasBlock _ => hasBlock
  | _ => false

namespace Kont

/-- The length that the stack is cut to when the call has come back, if it was `n` before. -/
def floor (n : Int) : Kont → Int
  | .activation a _ _ _ => a.height
  | .native _ height _ | .drop height => height
  | _ => n

/-- A call takes up a part of the stack below slot `n`. -/
def Lies (n : Int) : Kont → Prop
  | .activation a _ _ _ => a.Lies n
  | .native _ height _ | .drop height => 0 ≤ height ∧ height ≤ n
  | _ => True

/-- What ends a thread, or a call by the host that no signal gets past. -/
def isEnd : Kont → Bool
  | .boundary | .fiberBody | .fiberIteration => true
  | _ => false

/-- The activation of a method that a signal names. -/
def takes (m : Machine) (f : Failure) : Kont → Bool
  | .activation a _ _ _ => !a.asBlock && m.isNamed f.target a.frame
  | _ => false

/-- The activation that a signal stops at: a method takes the return that names it, and a send with a block is ended by the
break that names its frame. -/
def stops (m : Machine) (f : Failure) : Kont → Bool
  | .activation a _ _ p => m.isNamed f.target a.frame && if f.kind = .methodReturn then !a.asBlock else p.hasBlock
  | _ => false

theorem takes_eq_stops (hf : f.kind = .methodReturn) : k.takes m f = k.stops m f := by
  cases k with
  | activation a pc next p =>
    show (_ && _) = (_ && _)
    rw [if_pos hf, Bool.and_comm]
  | _ => rfl

theorem Lies.floor_le (h : k.Lies n) : k.floor n ≤ n := by
  cases k with
  | activation a => exact Activation.Lies.height_le h
  | native | drop => exact h.2
  | _ => exact le_rfl

end Kont

/-- The length that is left of a stack when calls have come back, the first one first. -/
def floors (n : Int) (ks : List Kont) : Int := ks.foldl (fun n k => k.floor n) n

/-- Calls lie on the stack one below the other, the first one below slot `n`. -/
def Piled : Int → List Kont → Prop
  | _, [] => True
  | n, k :: ks => k.Lies n ∧ Piled (k.floor n) ks

theorem piled_append : Piled n (ks ++ rest) ↔ Piled n ks ∧ Piled (floors n ks) rest := by
  induction ks generalizing n with
  | nil => exact (iff_of_eq (true_and _)).symm
  | cons k ks ih => rw [List.cons_append, Piled, Piled, ih, and_assoc, floors, floors, List.foldl_cons]

theorem Piled.floors_le (h : Piled n ks) : floors n ks ≤ n := by
  induction ks generalizing n with
  | nil => exact le_rfl
  | cons k ks ih => exact (ih h.2).trans h.1.floor_le

theorem Piled.lies {pc next : Int} {p : Pending} (h : Piled n ks) (hk : .activation a pc next p ∈ ks) : a.Lies n := by
  obtain ⟨above, rest, rfl⟩ := List.append_of_mem hk
  obtain ⟨hp, hl, -⟩ := piled_append.1 h
  exact ⟨hl.bottom, hl.height, hl.top.trans hp.floors_le⟩

theorem Piled.frame_lt {pc next : Int} {p : Pending} {b : Activation} {pc' next' : Int} {p' : Pending}
    (h : Piled n (.activation a pc next p :: ks)) (hk : .activation b pc' next' p' ∈ ks) : b.frame < a.frame := by
  have := (h.2.lies hk).top
  have : a.height ≤ a.frame := h.1.height
  have : (Kont.activation a pc next p).floor n = a.height := rfl
  omega

instance : Decidable (a.Lies n) :=
  decidable_of_iff (0 ≤ a.height ∧ a.height ≤ a.frame ∧ (a.frame : Int) + 8 ≤ n)
    ⟨fun h => ⟨h.1, h.2.1, h.2.2⟩, fun h => ⟨h.bottom, h.height, h.top⟩⟩

instance (n : Int) : (k : Kont) → Decidable (k.Lies n)
  | .activation a _ _ _ => inferInstanceAs (Decidable (a.Lies n))
  | .native _ height _ | .drop height => inferInstanceAs (Decidable (0 ≤ height ∧ height ≤ n))
  | .boundary | .negate | .each .. | .map .. | .times .. | .loop _ | .construct _ | .puts .. | .append .. | .equal ..
  | .pull _ | .feed _ | .fiberBody | .fiberIteration => inferInstanceAs (Decidable True)

instance decidablePiled : (n : Int) → (ks : List Kont) → Decidable (Piled n ks)
  | _, [] => inferInstanceAs (Decidable True)
  | n, k :: ks =>
    have := decidablePiled (k.floor n) ks
    inferInstanceAs (Decidable (k.Lies n ∧ Piled (k.floor n) ks))

/-! ## Machines with less on the stack -/

/-- The stack is cut to `n` slots. Nothing else is changed but what is held and left to be done on the thread, and which
fibers are given up. -/
structure Machine.Lowered (m m' : Machine) (n : Int) : Prop where
  rest : { m' with context := m.context, fibers := m.fibers, pool := m.pool } = m
  fiber : m'.context.fiber = m.context.fiber
  capacity : m'.context.stack.capacity = m.context.stack.capacity
  len : (m'.context.stack.len : Int) = n
  slot : ∀ i : Nat, (i : Int) < n → m'.slot i = m.slot i

namespace Machine.Lowered

theorem refl (m : Machine) : m.Lowered m m.context.stack.len := ⟨rfl, rfl, rfl, rfl, fun _ _ => rfl⟩

theorem trans (h : m.Lowered m₁ n) (h' : m₁.Lowered m₂ n') (hn : n' ≤ n) : m.Lowered m₂ n' where
  rest := by
    rw [← h.rest, ← h'.rest]
  fiber := h'.fiber.trans h.fiber
  capacity := h'.capacity.trans h.capacity
  len := h'.len
  slot i hi := (h'.slot i hi).trans (h.slot i (hi.trans_le hn))

/-- The stack is the same. -/
theorem of_stack (hr : { m' with context := m.context, fibers := m.fibers, pool := m.pool } = m)
    (hf : m'.context.fiber = m.context.fiber) (hs : m'.context.stack = m.context.stack) :
    m.Lowered m' m.context.stack.len :=
  ⟨hr, hf, by rw [hs], by rw [hs], fun i _ => by rw [Machine.slot, hs, Machine.slot]⟩

theorem heap (h : m.Lowered m' n) : m'.heap = m.heap := by
  rw [← h.rest]

theorem isNamed (h : m.Lowered m' n) {v : Value} {g : Nat} (hg : (g : Int) + 8 ≤ n) : m'.isNamed v g = m.isNamed v g := by
  rw [Machine.isNamed, h.slot _ (by omega), Machine.isNamed]

theorem stops (h : m.Lowered m' n) (hp : Piled n ks) (hk : k ∈ ks) : k.stops m' f = k.stops m f := by
  cases k with
  | activation a pc next p =>
    show (_ && _) = (_ && _)
    rw [h.isNamed (hp.lies hk).top]
  | _ => rfl

end Machine.Lowered

/-- The machine when a call has come back: its frame and its part of the stack are gone. -/
def Machine.back (m : Machine) (caller : Option Nat) (n : Int) : Machine :=
  { m with context.frame := caller, context.stack := m.context.stack.cut n.toNat .zero }

namespace Exec

theorem resize_apply (h0 : 0 ≤ n) (hn : n ≤ m.context.stack.len) :
    resize n m = .ok () { m with context.stack := m.context.stack.cut n.toNat .zero } := by
  show (if n < 0 then _ else _ : Exec Unit) m = _
  rw [if_neg (by omega), if_neg (by omega)]
  rfl

end Exec

theorem Machine.lowered_cut (h0 : 0 ≤ n) (hn : n ≤ m.context.stack.len) (w : Value) (x : Context)
    (hx : x.stack = m.context.stack.cut n.toNat w) (hf : x.fiber = m.context.fiber) :
    m.Lowered { m with context := x } n where
  rest := rfl
  fiber := hf
  capacity := by
    show x.stack.capacity = _
    rw [hx]
    rfl
  len := by
    show (x.stack.len : Int) = n
    rw [hx]
    show ((min n.toNat m.context.stack.len : Nat) : Int) = n
    omega
  slot i hi := by
    show x.stack.slots.getD i .zero = _
    rw [hx]
    exact Stack.getD_wipe _ _ _ (by omega)

theorem Machine.lowered_back (caller : Option Nat) (h0 : 0 ≤ n) (hn : n ≤ m.context.stack.len) :
    m.Lowered (m.back caller n) n :=
  lowered_cut h0 hn .zero _ rfl rfl

theorem Machine.Lowered.back (h : m.Lowered m₁ n) (ha : a.Lies m₁.context.stack.len) :
    m.Lowered (m₁.back a.caller a.height) a.height :=
  h.trans (lowered_back a.caller ha.bottom ha.height_le) (h.len ▸ ha.height_le)

/-! ## Fibers that are given up on the way -/

namespace Exec

theorem dispose_apply (fuel : Nat) (ds : List Disposal) (m : Machine) :
    ∃ fibers pool, dispose fuel ds m = .ok () { m with fibers := fibers, pool := pool } := by
  induction fuel generalizing ds m with
  | zero => exact ⟨_, _, rfl⟩
  | succ fuel ih =>
    cases ds with
    | nil => exact ⟨_, _, rfl⟩
    | cons d rest =>
      cases d with
      | stack s => exact ih rest { m with pool := m.pool.put s }
      | fiber id =>
        rw [Machine.Accounted.dispose_fiber]
        exact ih _ { m with fibers := m.fibers.modify id Fiber.ended }

theorem releaseFiber_apply (id : Nat) (m : Machine) :
    ∃ fibers pool, releaseFiber id m = .ok () { m with fibers := fibers, pool := pool } := by
  obtain ⟨n, hfuel, -⟩ := Machine.Accounted.burden_lt_disposalFuel m
  obtain ⟨fibers, pool, hdispose⟩ := dispose_apply n [.fiber id] m
  exact ⟨fibers, pool, (bind_of_ok hfuel).trans hdispose⟩

/-- An enumeration can always be ended. -/
theorem endDrive_apply (d : Drive) (m : Machine) :
    ∃ fibers pool temps, endDrive d m = .ok () { m with fibers := fibers, pool := pool, context.temps := temps } := by
  obtain ⟨fibers, pool, hrelease⟩ := releaseFiber_apply d.fiber m
  rw [endDrive, bind_of_ok hrelease]
  cases d.mode with
  | map out => exact ⟨_, _, _, rfl⟩
  | each | withIndex next => exact ⟨_, _, _, rfl⟩

/-! ## Handing on -/

/-- No handler is for a signal. -/
theorem handler?_of_isControl {seq : Code.Sequence} {pc : Int} (hf : f.kind.isControl = true) : handler? seq pc f = none := by
  rw [handler?, hf]
  rfl

theorem back_apply (caller : Option Nat) (r : Except Failure Value) (h0 : 0 ≤ n) (hn : n ≤ m.context.stack.len) : (do
    setFrame caller
    resize n
    return .deliver r : Exec Control) m = .ok (.deliver r) (m.back caller n) :=
  bind_of_ok (resize_apply (m := { m with context.frame := caller }) h0 hn)

/-- An activation that ends with a value gives back its frame. -/
theorem leave_ok (v : Value) (ha : a.Lies m.context.stack.len) :
    leave a (.ok v) m = .ok (.deliver (.ok v)) (m.back a.caller a.height) :=
  back_apply a.caller (.ok v) ha.bottom ha.height_le

/-- An activation that ends with a return from a method gives back its frame. It takes the return if that names its frame
and it is that of a method. -/
theorem leave_error (hf : f.kind = .methodReturn) (ha : a.Lies m.context.stack.len)
    (hcap : m.context.stack.len ≤ m.context.stack.capacity) : leave a (.error f) m =
      .ok (.deliver (if !a.asBlock && m.isNamed f.target a.frame then .ok f.value else .error f)) (m.back a.caller a.height) := by
  have hsame : sameFrame f.target a.frame m = .ok (m.isNamed f.target a.frame) m :=
    Machine.sameFrame_apply (by have := ha.top; omega)
  have back (r : Except Failure Value) := back_apply a.caller r ha.bottom ha.height_le
  unfold leave
  cases hb : a.asBlock with
  | true =>
    dsimp only
    rw [if_neg (by simp)]
    exact back _
  | false =>
    dsimp only
    rw [if_pos ⟨hf, rfl⟩, bind_of_ok hsame]
    cases m.isNamed f.target a.frame with
    | true => exact back _
    | false => exact back _

/-- One that ends with anything else hands it on. -/
theorem leave_other (hf : f.kind ≠ .methodReturn) (ha : a.Lies m.context.stack.len) :
    leave a (.error f) m = .ok (.deliver (.error f)) (m.back a.caller a.height) := by
  unfold leave
  dsimp only
  rw [if_neg fun h => hf h.1]
  exact back_apply a.caller (.error f) ha.bottom ha.height_le

theorem raise_signal (hf : f.kind.isControl = true) (pc : Int) : raise a pc f = leave a (.error f) := by
  unfold raise
  rw [handler?_of_isControl hf]

theorem resumeActivation_signal {pc next : Int} {p : Pending} (hf : f.kind = .methodReturn) :
    resumeActivation a pc next p (.error f) = leave a (.error f) := by
  rw [← raise_signal (by rw [hf]; rfl) pc]
  cases p with
  | send hasBlock discard =>
    cases hasBlock with
    | true =>
      unfold resumeActivation
      dsimp only
      rw [if_neg (by rw [hf]; decide)]
    | false => rfl
  | push | branch => rfl

/-- An activation that waits for a send with a block looks whether a break names its frame. -/
theorem resumeActivation_break (pc next : Int) (discard : Bool) (hf : f.kind = .blockReturn)
    (ha : a.Lies m.context.stack.len) (hcap : m.context.stack.len ≤ m.context.stack.capacity) :
    resumeActivation a pc next (.send true discard) (.error f) m = if m.isNamed f.target a.frame then (do
      if !discard then push f.value
      return .exec a next : Exec Control) m else leave a (.error f) m := by
  have hsame : sameFrame f.target a.frame m = .ok (m.isNamed f.target a.frame) m :=
    Machine.sameFrame_apply (by have := ha.top; omega)
  unfold resumeActivation
  dsimp only
  rw [if_pos hf, bind_of_ok hsame]
  cases m.isNamed f.target a.frame with
  | true => rw [if_pos rfl, if_pos rfl]
  | false => rw [if_neg Bool.false_ne_true, if_neg Bool.false_ne_true, ← raise_signal (by rw [hf]; rfl) pc]

/-- An activation that a signal does not stop at is left with it. -/
theorem resumeActivation_handed {pc next : Int} {p : Pending} (hf : f.kind.isControl = true)
    (ha : a.Lies m.context.stack.len) (hcap : m.context.stack.len ≤ m.context.stack.capacity)
    (hs : (Kont.activation a pc next p).stops m f = false) :
    resumeActivation a pc next p (.error f) m = .ok (.deliver (.error f)) (m.back a.caller a.height) := by
  by_cases hret : f.kind = .methodReturn
  · have htakes : (!a.asBlock && m.isNamed f.target a.frame) = false := (Kont.takes_eq_stops hret).trans hs
    rw [resumeActivation_signal hret, leave_error hret ha hcap, htakes, if_neg Bool.false_ne_true]
  have hbreak : f.kind = .blockReturn := by
    cases hk : f.kind <;> simp_all [ErrorKind.isControl]
  have raised : raise a pc f m = .ok (.deliver (.error f)) (m.back a.caller a.height) := by
    rw [raise_signal hf]
    exact leave_other hret ha
  cases p with
  | send hasBlock discard =>
    cases hasBlock with
    | true =>
      have hnamed : m.isNamed f.target a.frame = false := by
        simpa [Kont.stops, hret, Pending.hasBlock] using hs
      rw [resumeActivation_break _ _ _ hbreak ha hcap, hnamed, if_neg Bool.false_ne_true]
      exact leave_other hret ha
    | false => exact raised
  | push | branch => exact raised

/-- What is left to be done between activations hands any signal on, and gives back what it has of the stack. -/
theorem resumeKont_between (hf : f.kind.isControl = true) (hend : k.isEnd = false)
    (hbetween : ∀ a pc next p, k ≠ .activation a pc next p) (hk : k.Lies m.context.stack.len) :
    ∃ m', resumeKont k (.error f) m = .ok (.deliver (.error f)) m' ∧ m.Lowered m' (k.floor m.context.stack.len) ∧
      m'.context.konts = m.context.konts := by
  have hstop : f.kind ≠ .stopIteration := fun h => by
    rw [h] at hf
    cases hf
  cases k with
  | activation a pc next pending => exact absurd rfl (hbetween a pc next pending)
  | native caller height guarded =>
    have hcut := resize_apply (m := { m with context.frame := caller }) hk.1 hk.2
    refine ⟨{ m.back caller height with context.temps := if guarded then m.context.temps.tail else m.context.temps },
      ?_, Machine.lowered_cut hk.1 hk.2 _ _ rfl rfl, rfl⟩
    cases guarded with
    | true => exact bind_of_ok hcut
    | false => exact bind_of_ok hcut
  | drop height => exact ⟨_, bind_of_ok (resize_apply hk.1 hk.2), Machine.lowered_cut hk.1 hk.2 _ _ rfl rfl, rfl⟩
  | boundary | fiberBody | fiberIteration => cases hend
  | negate | each | times | puts | append | equal => exact ⟨_, rfl, .refl m, rfl⟩
  | map | construct => exact ⟨{ m with context.temps := m.context.temps.tail }, rfl, .of_stack rfl rfl rfl, rfl⟩
  | loop blk =>
    refine ⟨_, ?_, .refl m, rfl⟩
    unfold resumeKont
    dsimp only
    rw [if_neg hstop]
    rfl
  | pull d =>
    obtain ⟨fibers, pool, temps, hd⟩ := endDrive_apply d m
    refine ⟨{ m with fibers := fibers, pool := pool, context.temps := temps }, ?_, .of_stack rfl rfl rfl, rfl⟩
    unfold resumeKont
    dsimp only
    rw [bind_of_ok hd, if_neg hstop]
    rfl
  | feed d =>
    obtain ⟨fibers, pool, temps, hd⟩ := endDrive_apply d m
    exact ⟨{ m with fibers := fibers, pool := pool, context.temps := temps }, bind_of_ok hd, .of_stack rfl rfl rfl, rfl⟩

/-- What waits for a call hands on a signal that does not stop there. -/
theorem resumeKont_handed (hf : f.kind.isControl = true) (hend : k.isEnd = false) (hk : k.Lies m.context.stack.len)
    (hcap : m.context.stack.len ≤ m.context.stack.capacity) (hs : k.stops m f = false) :
    ∃ m', resumeKont k (.error f) m = .ok (.deliver (.error f)) m' ∧ m.Lowered m' (k.floor m.context.stack.len) ∧
      m'.context.konts = m.context.konts := by
  cases k with
  | activation a pc next pending =>
    exact ⟨_, resumeActivation_handed hf hk hcap hs, Machine.lowered_back a.caller hk.bottom hk.height_le, rfl⟩
  | _ => exact resumeKont_between hf hend (fun _ _ _ _ h => nomatch h) hk

end Exec

/-! ## All the way -/

/-- A failure is handed on, step after step, as it is. -/
inductive Unwinds (f : Failure) : Machine → Machine → Prop where
  | refl (m : Machine) : Unwinds f m m
  | next {m m₁ m' : Machine} : step (.deliver (.error f)) m = .ok (.inl (.deliver (.error f))) m₁ → Unwinds f m₁ m' →
      Unwinds f m m'

namespace Exec

theorem deliver_ok {r : Except Failure Value} {c : Control} (hkonts : m.context.konts = k :: rest)
    (hk : resumeKont k r { m with context.konts := rest } = .ok c m') : step (.deliver r) m = .ok (.inl c) m' := by
  rw [deliver_cons hkonts]
  exact bind_of_ok hk

theorem step_handed (hf : f.kind.isControl = true) (hkonts : m.context.konts = k :: rest) (hend : k.isEnd = false)
    (hk : k.Lies m.context.stack.len) (hcap : m.context.stack.len ≤ m.context.stack.capacity) (hs : k.stops m f = false) :
    ∃ m', step (.deliver (.error f)) m = .ok (.inl (.deliver (.error f))) m' ∧
      m.Lowered m' (k.floor m.context.stack.len) ∧ m'.context.konts = rest := by
  have hs' : k.stops { m with context.konts := rest } f = false := by
    cases k with
    | activation => exact hs
    | _ => rfl
  obtain ⟨m', hrun, hl, hrest⟩ := resumeKont_handed (m := { m with context.konts := rest }) hf hend hk hcap hs'
  refine ⟨m', deliver_ok hkonts hrun, ⟨?_, hl.fiber, hl.capacity, hl.len, hl.slot⟩, hrest⟩
  exact congrArg (fun x : Machine => { x with context := m.context }) hl.rest

/-- A signal gets past everything that does not stop it, with all frames. -/
theorem unwinds_all (hf : f.kind.isControl = true) (hkonts : m.context.konts = above ++ rest)
    (hend : ∀ k ∈ above, k.isEnd = false) (hp : Piled m.context.stack.len above)
    (hcap : m.context.stack.len ≤ m.context.stack.capacity) (hn : ∀ k ∈ above, k.stops m f = false) :
    ∃ m', Unwinds f m m' ∧ m'.context.konts = rest ∧ m.Lowered m' (floors m.context.stack.len above) := by
  induction above generalizing m with
  | nil => exact ⟨m, .refl m, hkonts, .refl m⟩
  | cons k ks ih =>
    obtain ⟨m₁, hstep, hl, hrest⟩ :=
      step_handed hf hkonts (hend k List.mem_cons_self) hp.1 hcap (hn k List.mem_cons_self)
    have hpile : Piled m₁.context.stack.len ks := hl.len ▸ hp.2
    have hle := hp.1.floor_le
    obtain ⟨m', hm', hk', hl'⟩ := ih hrest (fun k hk => hend k (List.mem_cons_of_mem _ hk)) hpile
      (by have := hl.len; have := hl.capacity; omega)
      fun k hk => (hl.stops hp.2 hk).trans (hn k (List.mem_cons_of_mem _ hk))
    rw [hl.len] at hl'
    exact ⟨m', .next hstep hm', hk', hl.trans hl' hp.2.floors_le⟩

/-- The method that a return names takes it for its own value, and gives back its frame. -/
theorem step_taken {pc next : Int} {p : Pending} (hf : f.kind = .methodReturn)
    (hkonts : m.context.konts = .activation a pc next p :: rest) (ha : a.Lies m.context.stack.len)
    (hcap : m.context.stack.len ≤ m.context.stack.capacity) (ht : (Kont.activation a pc next p).takes m f = true) :
    ∃ m', step (.deliver (.error f)) m = .ok (.inl (.deliver (.ok f.value))) m' ∧ m.Lowered m' a.height ∧
      m'.context.konts = rest ∧ m'.context.frame = a.caller := by
  have hrun : resumeKont (.activation a pc next p) (.error f) { m with context.konts := rest } =
      .ok (.deliver (.ok f.value)) ({ m with context.konts := rest }.back a.caller a.height) := by
    have hleave := leave_error (m := { m with context.konts := rest }) hf ha hcap
    refine (congrFun (resumeActivation_signal hf) _).trans (hleave.trans ?_)
    exact congrArg (fun r => EStateM.Result.ok (Control.deliver r) _) (if_pos ht)
  exact ⟨_, deliver_ok hkonts hrun, Machine.lowered_cut ha.bottom ha.height_le .zero _ rfl rfl, rfl, rfl⟩

end Exec

/-! ## Frames that hold anything -/

namespace Exec

theorem word_ok {i : Nat} {w : Value} (h : word i m = .ok w m') : w = m.slot i ∧ m' = m := by
  obtain ⟨s, _, hs, h⟩ := exists_of_bind h
  cases hs
  obtain ⟨hw, rfl⟩ := lift_ok h
  refine ⟨?_, rfl⟩
  unfold Stack.word? at hw
  cases hc : m'.context.stack.checkWord i with
  | ok u =>
    rw [hc] at hw
    exact (Except.ok.inj hw).symm
  | error d =>
    rw [hc] at hw
    cases hw

theorem sameFrame_ok {v : Value} {g : Nat} {b : Bool} (h : sameFrame v g m = .ok b m') : b = m.isNamed v g ∧ m' = m := by
  unfold sameFrame at h
  unfold Machine.isNamed
  cases hv : v == .frameAt g with
  | true =>
    rw [if_pos hv] at h
    cases h
    exact ⟨rfl, rfl⟩
  | false =>
    rw [if_neg (by rw [hv]; decide)] at h
    cases hr : v.isRef with
    | true =>
      rw [if_pos hr] at h
      obtain ⟨w, _, hw, h⟩ := exists_of_bind h
      obtain ⟨rfl, rfl⟩ := word_ok (i := g + 1) hw
      cases h
      exact ⟨rfl, rfl⟩
    | false =>
      rw [if_neg (by rw [hr]; decide)] at h
      cases h
      exact ⟨rfl, rfl⟩

/-- An activation is left with an outcome when its caller's frame is back. -/
theorem back_passes {r : Except Failure Value} {c : Control} (h : (do
    setFrame a.caller
    resize a.height
    return .deliver r : Exec Control) m = .ok c m') : c = .deliver r := by
  obtain ⟨_, _, -, h⟩ := exists_of_bind h
  obtain ⟨_, _, -, h⟩ := exists_of_bind h
  cases h
  rfl

theorem leave_passes {c : Control} (hf : f.kind = .methodReturn) (h : leave a (.error f) m = .ok c m') :
    c = .deliver (if !a.asBlock && m.isNamed f.target a.frame then .ok f.value else .error f) := by
  unfold leave at h
  cases hb : a.asBlock with
  | true =>
    rw [hb] at h
    dsimp only at h
    rw [if_neg (by simp)] at h
    exact back_passes h
  | false =>
    rw [hb] at h
    dsimp only at h
    rw [if_pos ⟨hf, rfl⟩] at h
    obtain ⟨_, m₁, hs, h⟩ := exists_of_bind h
    obtain ⟨rfl, -⟩ := sameFrame_ok hs
    cases hn : m.isNamed f.target a.frame with
    | true =>
      rw [hn] at h
      exact back_passes h
    | false =>
      rw [hn] at h
      exact back_passes h

theorem leave_other_passes {c : Control} (hf : f.kind ≠ .methodReturn) (h : leave a (.error f) m = .ok c m') :
    c = .deliver (.error f) := by
  unfold leave at h
  dsimp only at h
  rw [if_neg fun h => hf h.1] at h
  exact back_passes h

/-- Whatever the stack holds, what is left to be done between activations hands a signal on. -/
theorem resumeKont_between_passes {c : Control} (hf : f.kind.isControl = true) (hend : k.isEnd = false)
    (hbetween : ∀ a pc next p, k ≠ .activation a pc next p) (h : resumeKont k (.error f) m = .ok c m') :
    c = .deliver (.error f) := by
  have hstop : f.kind ≠ .stopIteration := fun h => by
    rw [h] at hf
    cases hf
  cases k with
  | activation a pc next pending => exact absurd rfl (hbetween a pc next pending)
  | native caller height guarded =>
    obtain ⟨_, _, -, h⟩ := exists_of_bind h
    obtain ⟨_, _, -, h⟩ := exists_of_bind h
    cases guarded with
    | true =>
      obtain ⟨_, _, -, h⟩ := exists_of_bind h
      cases h
      rfl
    | false =>
      cases h
      rfl
  | drop height =>
    obtain ⟨_, _, -, h⟩ := exists_of_bind h
    cases h
    rfl
  | boundary | fiberBody | fiberIteration => cases hend
  | negate | each | times | puts | append | equal =>
    cases h
    rfl
  | map | construct =>
    obtain ⟨_, _, -, h⟩ := exists_of_bind h
    cases h
    rfl
  | loop blk =>
    unfold resumeKont at h
    dsimp only at h
    rw [if_neg hstop] at h
    cases h
    rfl
  | pull d =>
    unfold resumeKont at h
    dsimp only at h
    obtain ⟨_, _, -, h⟩ := exists_of_bind h
    rw [if_neg hstop] at h
    cases h
    rfl
  | feed d =>
    obtain ⟨_, _, -, h⟩ := exists_of_bind h
    cases h
    rfl

/-- However frames lie and whatever they hold, what waits for a call hands the signal on, but for the method that it
names. -/
theorem resumeKont_passes {c : Control} (hf : f.kind = .methodReturn) (hend : k.isEnd = false)
    (h : resumeKont k (.error f) m = .ok c m') : c = .deliver (if k.takes m f then .ok f.value else .error f) := by
  cases k with
  | activation a pc next pending =>
    exact leave_passes hf ((congrFun (resumeActivation_signal hf) m).symm.trans h)
  | _ => exact resumeKont_between_passes (by rw [hf]; rfl) hend (fun _ _ _ _ h => nomatch h) h

/-- A break is handed on too, but for the send with a block in the frame that it names. -/
theorem resumeKont_break_passes {c : Control} (hf : f.kind = .blockReturn) (hend : k.isEnd = false)
    (h : resumeKont k (.error f) m = .ok c m') : c = .deliver (.error f) ∨
      ∃ a pc next discard, k = .activation a pc next (.send true discard) ∧ m.isNamed f.target a.frame = true ∧
        c = .exec a next := by
  have hcontrol : f.kind.isControl = true := by
    rw [hf]
    rfl
  have hother : f.kind ≠ .methodReturn := fun h => nomatch h.symm.trans hf
  cases k with
  | activation a pc next pending =>
    have raised (h : raise a pc f m = .ok c m') : c = .deliver (.error f) :=
      leave_other_passes hother ((congrFun (raise_signal hcontrol pc) m).symm.trans h)
    cases pending with
    | send hasBlock discard =>
      cases hasBlock with
      | true =>
        unfold resumeKont resumeActivation at h
        dsimp only at h
        rw [if_pos hf] at h
        obtain ⟨_, m₁, hs, h⟩ := exists_of_bind h
        obtain ⟨rfl, rfl⟩ := sameFrame_ok hs
        cases hn : m₁.isNamed f.target a.frame with
        | true =>
          rw [hn, if_pos rfl] at h
          refine .inr ⟨a, pc, next, discard, rfl, hn, ?_⟩
          cases discard with
          | true =>
            cases h
            rfl
          | false =>
            obtain ⟨_, _, -, h⟩ := exists_of_bind h
            cases h
            rfl
        | false =>
          rw [hn, if_neg Bool.false_ne_true] at h
          exact .inl (raised h)
      | false => exact .inl (raised h)
    | push | branch => exact .inl (raised h)
  | _ => exact .inl (resumeKont_between_passes hcontrol hend (fun _ _ _ _ h => nomatch h) h)

theorem exists_of_deliver {r : Except Failure Value} {o : Control ⊕ Outcome} (hkonts : m.context.konts = k :: rest)
    (h : step (.deliver r) m = .ok o m') : ∃ c, resumeKont k r { m with context.konts := rest } = .ok c m' ∧ o = .inl c := by
  rw [deliver_cons hkonts] at h
  obtain ⟨c, _, hc, h⟩ := exists_of_bind h
  cases h
  exact ⟨c, hc, rfl⟩

theorem step_passes {o : Control ⊕ Outcome} (hf : f.kind = .methodReturn) (hkonts : m.context.konts = k :: rest)
    (hend : k.isEnd = false) (h : step (.deliver (.error f)) m = .ok o m') :
    o = .inl (.deliver (if k.takes m f then .ok f.value else .error f)) := by
  obtain ⟨c, hc, rfl⟩ := exists_of_deliver hkonts h
  rw [resumeKont_passes hf hend hc]
  cases k <;> rfl

theorem step_break_passes {o : Control ⊕ Outcome} (hf : f.kind = .blockReturn) (hkonts : m.context.konts = k :: rest)
    (hend : k.isEnd = false) (h : step (.deliver (.error f)) m = .ok o m') : o = .inl (.deliver (.error f)) ∨
      ∃ a pc next discard, k = .activation a pc next (.send true discard) ∧ m.isNamed f.target a.frame = true ∧
        o = .inl (.exec a next) := by
  obtain ⟨c, hc, rfl⟩ := exists_of_deliver hkonts h
  refine (resumeKont_break_passes hf hend hc).imp (congrArg Sum.inl) ?_
  rintro ⟨a, pc, next, discard, hk, hn, rfl⟩
  exact ⟨a, pc, next, discard, hk, hn, rfl⟩

end Exec

end RubyMachine
