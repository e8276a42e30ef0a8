import RubyMachine.Proofs.Threads.Executions

/-! Operators in code. One may be computed at once or call a method, which may do anything; what is done with its value is
left to be done meanwhile. Two pieces of code that apply one to the same operands go through the same. -/

namespace RubyMachine

/-! ## Failures of operators -/

namespace Number

theorem ordinary_ok (v : Value) : Ordinary (.ok v) := nofun

theorem ordinary_of {c : Cause} (h : c.kind.isControl = false) : Ordinary (.error (.of c)) := by
  rintro _ ⟨⟩
  exact h

theorem ordinary_fixnum (n : Int) : Ordinary (fixnum n) := by
  unfold fixnum
  split
  · exact ordinary_ok _
  · exact ordinary_of rfl

theorem ordinary_multiply (a b : Int64) : Ordinary (multiply a b) := by
  unfold multiply
  split
  · exact ordinary_fixnum _
  · exact ordinary_of rfl

theorem ordinary_powerFrom (a r : Int64) (n : Nat) : Ordinary (powerFrom a r n) := by
  induction n generalizing r with
  | zero => exact ordinary_fixnum _
  | succ n ih =>
    unfold powerFrom
    split
    · split
      · exact ih _
      · exact ordinary_of rfl
    · exact ordinary_of rfl

theorem ordinary_shiftLeft (a n : Int64) : Ordinary (shiftLeft a n) := by
  unfold shiftLeft
  split
  · split
    · exact ordinary_ok _
    · exact ordinary_fixnum _
  split
  · exact ordinary_of rfl
  dsimp only
  split
  · exact ordinary_of rfl
  · exact ordinary_fixnum _

theorem ordinary_integerOp (op : Operator) (a b : Int64) (inverse : Int → Int → Value) : Ordinary (integerOp op a b inverse) := by
  cases op with
  | add | sub | bitOr | bitAnd | bitXor => exact ordinary_fixnum _
  | mul => exact ordinary_multiply a b
  | div | rem =>
    unfold integerOp
    dsimp only
    split
    · exact ordinary_of rfl
    · exact ordinary_fixnum _
  | pow =>
    unfold integerOp
    dsimp only
    split
    · exact ordinary_ok _
    · exact ordinary_powerFrom _ _ _
  | shl | shr => exact ordinary_shiftLeft _ _
  | eq | ne | teq | gt | ge | lt | le | cmp => exact ordinary_ok _

end Number

namespace Exec

open Machine

variable {m m' m₁ : Machine} {v w : Value} {op : Operator} {name : Ident} {negated : Bool} {r : Except Failure Value}

/-- An operator that is computed at once does not give a signal. -/
def Operation.Ordinary : Operation → Prop
  | .done r => RubyMachine.Ordinary r
  | .send _ _ => True

theorem mixedOperation_ordinary (op : Operator) (v w : Value) (m : Machine) :
    Secures (mixedOperation op v w) m fun o _ => o.Ordinary := by
  unfold mixedOperation
  split
  · exact .pure (Number.ordinary_ok _)
  · exact .pure (Number.ordinary_ok _)
  · exact .pure (Number.ordinary_ok _)
  any_goals exact .bind fun _ _ _ => .bind fun _ _ _ => .bind fun _ _ _ => .pure (Number.ordinary_of rfl)
  · exact .pure (Number.ordinary_ok _)
  · exact .bind fun _ _ _ => .bind fun _ _ _ => .bind fun _ _ _ => .bind fun _ _ _ => .pure (Number.ordinary_of rfl)

theorem operation_ordinary (op : Operator) (v w : Value) (m : Machine) :
    Secures (operation op v w) m fun o _ => o.Ordinary := by
  unfold operation
  split
  · exact .pure (Number.ordinary_integerOp _ _ _ _)
  split
  · exact .pure (Number.ordinary_ok _)
  split
  · exact mixedOperation_ordinary op v w m
  split
  · split
    · exact .pure (Number.ordinary_ok _)
    · exact .pure trivial
  · split
    · exact .pure (Number.ordinary_ok _)
    · exact .pure trivial
  · exact .pure trivial
  · exact .pure trivial

/-! ## Sends of operators -/

/-- The method that answers to a name, or the failure that there is none. -/
def answer (name : Ident) (v : Value) : Exec (Except Failure FnId) := do
  match ← findMethod? (← classOf v) name with
  | none => return .error (← noMethod name v)
  | some fn => return .ok fn

theorem Detached.answer (name : Ident) (v : Value) : Detached (answer name v) := by
  refine (Detached.classOf v).bind fun c => (Detached.findMethod? c name).bind fun r => ?_
  cases r with
  | none => exact (Detached.noMethod name v).bind fun _ => .pure _
  | some fn => exact .pure _

theorem answer_ordinary (name : Ident) (v : Value) (m : Machine) :
    Secures (answer name v) m fun r _ => ∀ f, r = .error f → f.kind.isControl = false := by
  refine .bind fun c _ _ => .bind fun r m₁ _ => ?_
  cases r with
  | none =>
    have failure : Secures (noMethod name v) m₁ fun f _ => f.kind.isControl = false :=
      .bind fun _ _ _ => .bind fun _ _ _ => .pure rfl
    refine .bind fun f m₂ hf => .pure fun f' he => ?_
    cases he
    exact failure f m₂ hf
  | some fn => exact .pure nofun

theorem markBoundary_apply (hf : m.context.frame ≠ none) : markBoundary m = .ok () m := by
  obtain ⟨f, hf⟩ := Option.ne_none_iff_exists'.mp hf
  have frame : frame? m = .ok (some f) m := congrArg (EStateM.Result.ok · m) hf
  exact bind_of_ok frame

/-- A send from code. -/
theorem send_eq (hf : m.context.frame ≠ none) : send name v [w] .nil none m =
    (answer name v >>= fun r => match r with
      | .error f => pure (.failure f)
      | .ok fn => do
        let base ← pushCall v [w]
        return .call fn v base 1 .nil none) m := by
  have found : Detached (do findMethod? (← classOf v) name) :=
    (Detached.classOf v).bind fun c => Detached.findMethod? c name
  have context := found.context m
  have send : send name v [w] .nil none = (do findMethod? (← classOf v) name) >>= fun r => match r with
      | none => do return .failure (← noMethod name v)
      | some fn => do
        markBoundary
        let base ← pushCall v [w]
        return .call fn v base 1 .nil none := by
    rw [bind_assoc]
    rfl
  have answer : answer name v = (do findMethod? (← classOf v) name) >>= fun r => match r with
      | none => do return .error (← noMethod name v)
      | some fn => return .ok fn := by
    rw [bind_assoc]
    rfl
  rw [send, answer]
  generalize (do findMethod? (← classOf v) name : Exec (Option FnId)) = find at context
  rw [bind_assoc, bind_apply, bind_apply]
  unfold after at context
  cases h : find m with
  | error d m₁ => rfl
  | ok r m₁ =>
    rw [h] at context
    have context : m₁.context = m.context := context
    cases r with
    | none =>
      dsimp only
      rw [bind_assoc]
      rfl
    | some fn => exact bind_of_ok (markBoundary_apply (context ▸ hf))

/-- A place for the receiver, and one for the argument. -/
theorem pushCall_apply (h : m.context.stack.len + 2 ≤ m.context.stack.capacity) : pushCall v [w] m =
    .ok ((m.context.stack.len + 1 : Nat) : Int) (m.withStack ((m.context.stack.append v).append w)) := by
  have pushed := push_apply (m := m) v (by omega)
  have check : (liftM ((m.context.stack.append v).checkCapacity (m.context.stack.len + 1 + 1)) : Exec Unit)
      (m.withStack (m.context.stack.append v)) = .ok () (m.withStack (m.context.stack.append v)) := by
    rw [Stack.checkCapacity, if_neg]
    · rfl
    · show ¬((m.context.stack.capacity : Int) < _)
      omega
  have extended : extend [w] (m.withStack (m.context.stack.append v)) =
      .ok () (m.withStack ((m.context.stack.append v).append w)) :=
    bind_of_ok (f := fun _ => modifyStack (·.appendAll [w])) check
  exact (bind_of_ok pushed).trans (bind_of_ok (x := height) rfl |>.trans (bind_of_ok extended))

/-! ## What waits for an operator -/

/-- Applies an operator to operands that are off the stack. What waits for the value has it at once, or once the method
has returned. -/
def operate (k : Kont) (op : Operator) (v w : Value) : Exec Control := do
  match ← operation op v w with
  | .done r => resumeKont k r
  | .send name negated => do
    pushKont k
    sendOperator name negated v w

/-- What is done with the value of a method before it is that of the operator. -/
def negation : Bool → List Kont
  | true => [.negate]
  | false => []

end Exec

/-- The thread when an operator has been sent for which `k` waits. -/
def Context.sending (negated : Bool) (k : Kont) (x : Context) : Context :=
  { x with konts := Exec.negation negated ++ k :: x.konts }

/-- The call of the method of an operator, made on the thread `x`. -/
def Moment.calling (n : Machine) (x : Context) (fn : FnId) (v w : Value) : Moment where
  control := .call fn v (x.stack.len + 1 : Nat) 1 .nil none
  machine := n.withContext { x with stack := (x.stack.append v).append w }

namespace Exec

/-- What comes of sending an operator, by what answers to it. -/
def sent (v w : Value) (x : Context) : EStateM.Result Defect Machine (Except Failure FnId) → Outturn
  | .error d n => .error d (n.withContext x)
  | .ok (.error f) n => .ok (.failure f) (n.withContext x)
  | .ok (.ok fn) n => .ok (Moment.calling n x fn v w).control (Moment.calling n x fn v w).machine

theorem sendOperator_eq (negated : Bool) (k : Kont) (hf : m.context.frame ≠ none)
    (hroom : m.context.stack.len + 2 ≤ m.context.stack.capacity) :
    (do pushKont k; sendOperator name negated v w : Exec Control) m =
      sent v w (m.context.sending negated k) (answer name v m) := by
  have pending : (do pushKont k; sendOperator name negated v w : Exec Control) m =
      send name v [w] .nil none (m.withContext (m.context.sending negated k)) := by
    cases negated <;> rfl
  have there := (Detached.answer name v).running (Context.sending negated k) m
  have context := (Detached.answer name v).context m
  rw [pending, send_eq (m := m.withContext (m.context.sending negated k)) hf, bind_apply, there]
  unfold after at context
  cases h : answer name v m with
  | error d n =>
    rw [h] at context
    have context : n.context = m.context := context
    rw [← context]
    rfl
  | ok r n =>
    rw [h] at context
    have context : n.context = m.context := context
    rw [← context] at hroom ⊢
    cases r with
    | error f => rfl
    | ok fn =>
      have pushed := pushCall_apply (v := v) (w := w) (m := n.withContext (n.context.sending negated k)) hroom
      exact bind_of_ok (f := fun base => pure (Control.call fn v base 1 .nil none)) pushed

end Exec

/-! ## Operators that nothing answers to -/

namespace Stretch

open Exec

variable {s s' : Stretch} {k : Kont} {m : Machine} {p p' : Moment} {f : Failure} {trail : List Moment} {o o₁ : Outturn}
  {negated : Bool} {x y : Outturn} {Q : Outturn → Outturn → Prop}

theorem Concludes.executes (h : s.Concludes s' Q x y) (hp : p.Steps s.thread x) (hp' : p'.Steps s'.thread y)
    (hx : s.Executes p trail o) :
    ∃ trail' o', s'.Executes p' trail' o' ∧ List.Forall₂ Moment.Resembles trail trail' ∧ Q o o' := by
  obtain ⟨o₁, o', ho, ho', hq⟩ := h
  obtain ⟨rfl, rfl⟩ := (ho.executes_iff hp).mp hx
  exact ⟨[], o', ho'.executes hp'.step, .nil, hq⟩

/-- A thread is not back at its code while there is more to be done above it. -/
theorem not_at_sending (hat : s.At m) (n : Machine) (t : Stack) :
    ¬s.At (n.withContext { m.context.sending negated k with stack := t }) := by
  intro ⟨_, hk⟩
  have hk : negation negated ++ k :: m.context.konts = m.context.konts := hk.trans hat.2.symm
  have := congrArg List.length hk
  simp only [List.length_append, List.length_cons] at this
  omega

/-- The failure on its way to what waits for the operator. -/
def refusal (negated : Bool) (f : Failure) (k : Kont) (m : Machine) : List Moment :=
  if negated then [⟨.failure f, m.withContext (m.context.sending false k), []⟩] else []

theorem executes_iff_of_refused (negated : Bool) (hat : s.At m) (h : s.Ends (resumeKont k (.error f) m) o₁) :
    s.Executes ⟨.failure f, m.withContext (m.context.sending negated k), []⟩ trail o ↔
      trail = refusal negated f k m ∧ o = o₁ := by
  have waiting : (Moment.mk (.failure f) (m.withContext (m.context.sending false k)) []).Steps s.thread
      (resumeKont k (.error f) m) :=
    .deliver (show (m.withContext (m.context.sending false k)).context.konts = k :: m.context.konts from rfl) hat.1
      List.not_mem_nil
  cases negated with
  | false => exact h.executes_iff waiting
  | true =>
    have negating : (Moment.mk (.failure f) (m.withContext (m.context.sending true k)) []).Steps s.thread
        (.ok (.failure f) (m.withContext (m.context.sending false k))) :=
      .deliver (show (m.withContext (m.context.sending true k)).context.konts = .negate :: k :: m.context.konts from rfl) hat.1
        List.not_mem_nil
    rw [executes_iff_of_away (q := ⟨.failure f, m.withContext (m.context.sending false k), []⟩) negating rfl
      (not_at_sending hat m m.context.stack)]
    constructor
    · rintro ⟨rest, rfl, hx⟩
      obtain ⟨rfl, rfl⟩ := (h.executes_iff waiting).mp hx
      exact ⟨rfl, rfl⟩
    · rintro ⟨rfl, rfl⟩
      exact ⟨[], rfl, (h.executes_iff waiting).mpr ⟨rfl, rfl⟩⟩

end Stretch

/-! ## Operators in two stretches of code -/

/-- Two stretches that wait for the value of an operator come to something that is related when they are given the same. -/
structure Stretch.Matches (s s' : Stretch) (k k' : Kont) (Q : Outturn → Outturn → Prop) : Prop where
  thread : s'.thread = s.thread
  konts : s'.konts = s.konts
  driven : drivenFibers [k'] = drivenFibers [k]
  defect : ∀ d (m m' : Machine), m.Resembles m' → Q (.error d m) (.error d m')
  /-- A signal comes from a call, after which the stacks are the same. -/
  concludes : ∀ r (m m' : Machine), m.Alike m' → s.At m → m.context.stack.len < m.context.stack.capacity →
    m = m' ∨ Ordinary r → s.Concludes s' Q (Exec.resumeKont k r m) (Exec.resumeKont k' r m')

namespace Stretch.Matches

open Exec

variable {s s' : Stretch} {k k' : Kont} {Q : Outturn → Outturn → Prop} {m m' : Machine} {p p' : Moment} {r : Except Failure Value}
  {trail : List Moment} {o : Outturn} {v w : Value} {op : Operator} {name : Ident} {negated : Bool}

theorem symm (h : s.Matches s' k k' Q) : s'.Matches s k' k (flip Q) where
  thread := h.thread.symm
  konts := h.konts.symm
  driven := h.driven.symm
  defect d m m' hm := h.defect d m' m hm.symm
  concludes r m m' hm hat hroom hr := by
    have hat' : s.At m' := by
      obtain ⟨t, ht, rfl⟩ := hm
      exact ⟨hat.1.trans h.thread, hat.2.trans h.konts⟩
    have hroom' : m'.context.stack.len < m'.context.stack.capacity := by
      rwa [← hm.stack.len, ← hm.stack.capacity]
    obtain ⟨o', o, ho', ho, hq⟩ := h.concludes r m' m hm.symm hat' hroom' (hr.imp_left Eq.symm)
    exact ⟨o, o', ho, ho', hq⟩

theorem sent_withStack (v w : Value) (x : Context) (t : Stack) (a : EStateM.Result Defect Machine (Except Failure FnId)) :
    sent v w x (mapState (Machine.withStack · t) a) = sent v w x a := by
  rcases a with ⟨f | fn, n⟩ | ⟨d, n⟩ <;> rfl

/-- Machines resemble each other whatever is left to be done. -/
theorem resembles_sending (negated : Bool) (hm : m.Alike m') (n : Machine) :
    (n.withContext (m.context.sending negated k)).Resembles (n.withContext (m'.context.sending negated k')) := by
  obtain ⟨t, ht, rfl⟩ := hm
  exact ⟨t, ht, rfl⟩

theorem leads_negation (negated : Bool) (q : Mark) : q.Leads (negation negated) q := by
  cases negated with
  | false => exact Mark.leads_refl q
  | true => exact ⟨trivial, Mark.leads_refl q⟩

/-- A method is called, and its value taken when it has returned. -/
theorem called (h : s.Matches s' k k' Q) (hm : m.Alike m') (hat : s.At m)
    (hfull : (m'.context.stack.append v).append w = (m.context.stack.append v).append w)
    (hroom : m.context.stack.len + 2 ≤ m.context.stack.capacity) {n : Machine} {fn : FnId}
    (ho : (Moment.calling n (m.context.sending negated k) fn v w).Orderly)
    (hx : s.Executes (.calling n (m.context.sending negated k) fn v w) trail o) :
    ∃ trail' o', s'.Executes (.calling n (m'.context.sending negated k') fn v w) trail' o' ∧
      List.Forall₂ Moment.Resembles trail trail' ∧ Q o o' := by
  have driven_cons (k : Kont) : drivenFibers (k :: s.konts) = drivenFibers [k] ++ drivenFibers s.konts :=
    List.filterMap_append (l := [k])
  let e : Exchange :=
    { thread := s.thread
      room := m.context.stack.capacity
      old := k :: s.konts
      new := k' :: s.konts
      ne := List.cons_ne_nil _ _
      length_eq := rfl
      driven := by rw [driven_cons, driven_cons, h.driven] }
  generalize hp : Moment.calling n (m.context.sending negated k) fn v w = p at ho hx
  have fiber : p.machine.context.fiber = s.thread := hp ▸ hat.1
  have konts : p.machine.context.konts = negation negated ++ k :: s.konts := by
    rw [← hat.2, ← hp]
    rfl
  let visit : Visit := ⟨s.thread, k :: s.konts, p.control.mark p.machine.context⟩
  have within : e.Within visit p := by
    refine ⟨ho, Exchange.holds_of_threaded ho.threaded fiber (hp ▸ rfl) ⟨negation negated, konts⟩, p.machine.waiting, ?_⟩
    exact .running ⟨fiber, negation negated, konts, leads_negation _ _⟩ rfl
  have returns (q : Moment) (r : Except Failure Value) (hq : e.Within visit q)
      (hr : visit.Returned q.control q.machine) : s.Concludes s' Q (resumeKont k r { q.machine with context.konts := s.konts })
        (resumeKont k' r { q.machine with context.konts := s.konts }) := by
    obtain ⟨W, hW⟩ := hq.during
    have meets := (hW.returned hq.ordered hr).1
    have len : visit.mark.len = some ((m.context.stack.len + 1 : Nat) - 1 : Int) := by
      rw [show visit.mark = p.control.mark p.machine.context from rfl, ← hp]
      rfl
    have height : some ((m.context.stack.len + 1 : Nat) - 1 : Int) = some (q.machine.context.stack.len : Int) :=
      len ▸ meets.len.resolve_left (len ▸ Option.some_ne_none _)
    have height := Option.some.inj height
    have room : q.machine.context.stack.capacity = m.context.stack.capacity := (hq.holds.running hr.fiber).1
    exact h.concludes r _ _ (.refl _) ⟨hr.fiber, rfl⟩
      (show q.machine.context.stack.len < q.machine.context.stack.capacity by omega) (.inl rfl)
  have exchanged : p.on e = .calling n (m'.context.sending negated k') fn v w := by
    have same : e.on p.machine = { p.machine with context.konts := negation negated ++ k' :: s.konts } := by
      rw [Exchange.on_running ho.threaded fiber, konts]
      exact congrArg (fun ks => { p.machine with context.konts := ks }) (Exchange.konts_append (negation negated))
    obtain ⟨t, ht, rfl⟩ := hm
    have control : p.control = .call fn v (t.len + 1 : Nat) 1 .nil none := by rw [ht.len, ← hp]; rfl
    have machine : e.on p.machine = n.withContext { (m.withStack t).context.sending negated k' with
        stack := (t.append v).append w } := by
      have full : (t.append v).append w = (m.context.stack.append v).append w := hfull
      rw [same, ← hp, full, ← hat.2]
      rfl
    have calls : p.calls = [] := by rw [← hp]; rfl
    rw [Moment.on, control, machine, calls]
    rfl
  rw [← exchanged]
  exact Stretch.Executes.on ⟨rfl, rfl⟩ ⟨h.thread, h.konts⟩ rfl rfl rfl rfl
    (fun d m => h.defect d m _ (Machine.resembles_mapKonts _ _)) returns within hx

/-- What comes of an operator that is sent. -/
theorem sent (h : s.Matches s' k k' Q) (hm : m.Alike m') (hat : s.At m)
    (hfull : (m'.context.stack.append v).append w = (m.context.stack.append v).append w)
    (hroom : m.context.stack.len + 2 ≤ m.context.stack.capacity)
    {a : EStateM.Result Defect Machine (Except Failure FnId)} (ha : ∀ f n, a = .ok (.error f) n → f.kind.isControl = false)
    (hp : p.Steps s.thread (Exec.sent v w (m.context.sending negated k) a)) (hc : p.calls = []) (ho : p.Orderly)
    (hp' : p'.Steps s'.thread (Exec.sent v w (m'.context.sending negated k') a)) (hc' : p'.calls = [])
    (hx : s.Executes p trail o) :
    ∃ trail' o', s'.Executes p' trail' o' ∧ List.Forall₂ Moment.Resembles trail trail' ∧ Q o o' := by
  have hat' : s'.At m' := by
    obtain ⟨t, ht, rfl⟩ := hm
    exact ⟨hat.1.trans h.thread.symm, hat.2.trans h.konts.symm⟩
  cases a with
  | error d n =>
    obtain ⟨rfl, rfl⟩ := (executes_iff_of_fails hp).mp hx
    exact ⟨[], _, (executes_iff_of_fails hp').mpr ⟨rfl, rfl⟩, .nil, h.defect d _ _ (resembles_sending negated hm n)⟩
  | ok r n =>
    cases r with
    | error f =>
      have alike : (n.withContext m.context).Alike (n.withContext m'.context) := by
        obtain ⟨t, ht, rfl⟩ := hm
        exact ⟨t, ht, rfl⟩
      have ordinary : Ordinary (.error f) := by
        rintro _ ⟨⟩
        exact ha f n rfl
      have room : m.context.stack.len < m.context.stack.capacity := by omega
      obtain ⟨o₁, o', ends, ends', hq⟩ := h.concludes (.error f) _ _ alike hat room (.inr ordinary)
      let q : Moment := ⟨.failure f, n.withContext (m.context.sending negated k), []⟩
      let q' : Moment := ⟨.failure f, n.withContext (m'.context.sending negated k'), []⟩
      obtain ⟨rest, htrail, hrest⟩ := (executes_iff_of_away (q := q) hp hc.symm (not_at_sending hat n m.context.stack)).mp hx
      obtain ⟨hrest, rfl⟩ := (executes_iff_of_refused (m := n.withContext m.context) negated hat ends).mp hrest
      have hx' := (executes_iff_of_refused (m := n.withContext m'.context) negated hat' ends').mpr ⟨rfl, rfl⟩
      refine ⟨_, o', (executes_iff_of_away (q := q') hp' hc'.symm (not_at_sending hat' n m'.context.stack)).mpr ⟨_, rfl, hx'⟩,
        ?_, hq⟩
      rw [htrail, hrest]
      refine .cons ⟨rfl, resembles_sending negated hm n⟩ ?_
      cases negated with
      | false => exact .nil
      | true => exact .cons ⟨rfl, resembles_sending false hm n⟩ .nil
    | ok fn =>
      let q : Moment := .calling n (m.context.sending negated k) fn v w
      let q' : Moment := .calling n (m'.context.sending negated k') fn v w
      obtain ⟨rest, htrail, hrest⟩ := (executes_iff_of_away (q := q) hp hc.symm (not_at_sending hat n _)).mp hx
      obtain ⟨trail', o', hx', hall, hq⟩ := h.called hm hat hfull hroom (ho.next (hp.leads (q := q) hc.symm)) hrest
      refine ⟨q' :: trail', o', (executes_iff_of_away (q := q') hp' hc'.symm (not_at_sending hat' n _)).mpr ⟨_, rfl, hx'⟩,
        ?_, hq⟩
      rw [htrail]
      refine .cons ⟨?_, ?_⟩ hall
      · exact congrArg (fun len : Nat => Control.call fn v (len + 1 : Nat) 1 .nil none) hm.stack.len.symm
      · obtain ⟨t, ht, rfl⟩ := hm
        have full : ((t.append v).append w).Alike ((m.context.stack.append v).append w) :=
          (show (t.append v).append w = _ from hfull) ▸ .refl _
        exact ⟨_, full, rfl⟩

/-- What comes of an operator. -/
theorem operate (h : s.Matches s' k k' Q) (hm : m.Alike m') (hat : s.At m) (hf : m.context.frame ≠ none)
    (hfull : (m'.context.stack.append v).append w = (m.context.stack.append v).append w)
    (hroom : m.context.stack.len + 2 ≤ m.context.stack.capacity)
    (hp : p.Steps s.thread (operate k op v w m)) (hc : p.calls = []) (ho : p.Orderly)
    (hp' : p'.Steps s'.thread (operate k' op v w m')) (hc' : p'.calls = [])
    (hx : s.Executes p trail o) :
    ∃ trail' o', s'.Executes p' trail' o' ∧ List.Forall₂ Moment.Resembles trail trail' ∧ Q o o' := by
  have likened := Likewise.of_detached (Detached.operation op v w) m m' hm
  have ordinary := operation_ordinary op v w m
  have context := (Detached.operation op v w).context m
  have context' := (Detached.operation op v w).context m'
  unfold Exec.operate at hp hp'
  unfold Exec.Secures at ordinary
  unfold after at context context'
  rw [bind_apply] at hp hp'
  generalize operation op v w m = x at likened ordinary context hp
  generalize operation op v w m' = y at likened context' hp'
  cases likened with
  | @error d n n' hn =>
    obtain ⟨rfl, rfl⟩ := (executes_iff_of_fails hp).mp hx
    exact ⟨[], _, (executes_iff_of_fails hp').mpr ⟨rfl, rfl⟩, .nil, h.defect d n n' hn.resembles⟩
  | @ok x _ n n' hxy hn _ =>
    subst hxy
    have context : n.context = m.context := context
    have context' : n'.context = m'.context := context'
    have there : s.At n := by rwa [Stretch.At, context]
    cases x with
    | done r =>
      have concludes := h.concludes r n n' hn there (by rw [context]; omega) (.inr (ordinary _ _ rfl))
      exact concludes.executes hp hp' hx
    | send name negated =>
      dsimp only at hp hp'
      rw [← context, ← context'] at hfull
      rw [← context] at hroom hf
      obtain ⟨t, ht, rfl⟩ := hn
      have same : answer name v (n.withStack t) = mapState (Machine.withStack · t) (answer name v n) :=
        (Detached.answer name v).running (fun x => { x with stack := t }) n
      have hroom' : t.len + 2 ≤ t.capacity := by rwa [ht.len, ht.capacity]
      rw [sendOperator_eq _ _ hf hroom] at hp
      rw [sendOperator_eq (m := n.withStack t) _ _ hf hroom', same, sent_withStack] at hp'
      exact h.sent ⟨t, ht, rfl⟩ there hfull hroom (fun f n₁ ha => answer_ordinary name v n _ n₁ ha f rfl) hp hc ho hp' hc' hx

end Stretch.Matches

end RubyMachine
