import RubyMachine.Coroutine
import Mathlib.Data.List.Induction

/-! What a coroutine answers, told by the calls that were made on it from outside. The body alone, given the same inputs
in the same order, says what every resumption answers (`calls_exact`): no input and no output is lost, comes twice or
comes to the wrong side. -/

namespace RubyMachine.Coroutine

/-- What is done with a coroutine. -/
inductive Call (I : Type) where
  | resume (input : I)
  | stop

variable {σ I O : Type}

def Call.isStop : Call I → Bool
  | resume _ => false
  | stop => true

def Call.input? : Call I → Option I
  | resume i => some i
  | stop => none

/-- What the resumptions pass, in order. -/
def inputs (calls : List (Call I)) : List I := calls.filterMap Call.input?

/-! ## The body alone -/

/-- What comes after an outcome: an input is the result of the yield that the body waits in, if it waits in one. -/
def Outcome.next? (body : Body σ I O) (i : I) : Outcome σ O → Option (Outcome σ O)
  | yield _ s => some (body.resume s i)
  | finish _ => none
  | crash _ => none

/-- The outcome of the last input when a body is given them one after the other: the first is its argument, and each
later one is the result of its last yield. There is none if the body was over before. -/
def Body.replay (body : Body σ I O) : List I → Option (Outcome σ O)
  | [] => none
  | first :: later => later.foldl (fun x i => x.bind (Outcome.next? body i)) (some (body.start first))

/-- What a resumption answers: whether the body is done, and what it hands out. -/
def answer [Inhabited O] : Option (Outcome σ O) → Except Defect (O × Bool)
  | some (.yield out _) => .ok (out, false)
  | some (.finish out) => .ok (out, true)
  | some (.crash m) => .error (.raised m)
  | none => .ok (default, true)

variable {body : Body σ I O} {l : List I} {i : I}

theorem replay_concat (hl : l ≠ []) (i : I) : body.replay (l ++ [i]) = (body.replay l).bind (Outcome.next? body i) := by
  cases l with
  | nil => exact absurd rfl hl
  | cons first later =>
    rw [List.cons_append]
    exact List.foldl_append ..

theorem inputs_concat (calls : List (Call I)) (k : Call I) : inputs (calls ++ [k]) = inputs calls ++ k.input?.toList := by
  unfold inputs
  rw [List.filterMap_append]
  cases h : k.input? <;> simp [h]

/-! ## One resumption -/

/-- Where a sequence stands after an outcome of its body. -/
def Outcome.pull : Outcome σ O → Pull (Wait σ)
  | yield _ s => .waiting (.inside s)
  | finish _ => .ended
  | crash _ => .ended

def Outcome.isFinal : Outcome σ O → Bool
  | finish _ => true
  | _ => false

/-- Where a coroutine stands that was not stopped, and whether it is done. -/
def standing (body : Body σ I O) (l : List I) : Pull (Wait σ) × Bool :=
  if l = [] then (.fresh, false)
  else match body.replay l with
    | some out => (out.pull, out.isFinal)
    | none => (.ended, true)

theorem standing_done [Inhabited O] (body : Body σ I O) (l : List I) :
    (standing body l).2 = true ↔ l ≠ [] ∧ ∃ out, answer (body.replay l) = .ok (out, true) := by
  unfold standing
  split_ifs with hl
  · simp [hl]
  · cases body.replay l with
    | none => exact iff_of_true rfl ⟨hl, _, rfl⟩
    | some out => cases out <;> simp [answer, Outcome.isFinal, hl]

variable [Inhabited I] [Inhabited O] {c : Coroutine σ I}

theorem resume_of_done (hc : c.done = true) (body : Body σ I O) (i : I) : c.resume body i = (.ok (default, true), c) :=
  if_pos hc

theorem stop_of_done (hc : c.done = true) : c.stop = c := if_pos hc

theorem resume_of_outcome (hc : c.done = false) (out : Outcome σ O)
    (hnext : c.pull.next body.source i = Pull.settle out.emission) :
    (c.resume body i).1 = answer (some out) ∧ (c.resume body i).2.pull = out.pull ∧
      (c.resume body i).2.done = out.isFinal := by
  rw [resume, if_neg (by rw [hc]; exact Bool.false_ne_true)]
  dsimp only
  rw [hnext]
  cases out with
  | yield out s => exact ⟨rfl, rfl, hc⟩
  | finish out => exact ⟨rfl, rfl, rfl⟩
  | crash m => exact ⟨rfl, rfl, hc⟩

theorem resume_of_ended (hc : c.done = false) (hp : c.pull = .ended) (body : Body σ I O) (i : I) :
    (c.resume body i).1 = answer (none : Option (Outcome σ O)) ∧ (c.resume body i).2.pull = .ended ∧
      (c.resume body i).2.done = true := by
  rw [resume, if_neg (by rw [hc]; exact Bool.false_ne_true)]
  dsimp only
  rw [hp]
  exact ⟨rfl, rfl, rfl⟩

/-- A resumption takes the body one input further, and answers with what comes of it. -/
theorem resume_standing (h : (c.pull, c.done) = standing body l) (i : I) :
    (c.resume body i).1 = answer (body.replay (l ++ [i])) ∧
      ((c.resume body i).2.pull, (c.resume body i).2.done) = standing body (l ++ [i]) := by
  have hafter : standing body (l ++ [i]) = match body.replay (l ++ [i]) with
      | some out => (out.pull, out.isFinal)
      | none => (.ended, true) := if_neg (by simp)
  by_cases hl : l = []
  · subst hl
    obtain ⟨hp, hc⟩ := Prod.mk.inj (h.trans (if_pos rfl))
    obtain ⟨hanswer, hpull, hdone⟩ := resume_of_outcome hc (body.start i) (by rw [hp]; rfl)
    rw [hafter]
    exact ⟨hanswer, Prod.ext hpull hdone⟩
  rw [standing, if_neg hl] at h
  rw [hafter, replay_concat hl]
  cases hx : body.replay l with
  | none =>
    rw [hx] at h
    rw [resume_of_done (Prod.mk.inj h).2]
    exact ⟨rfl, h⟩
  | some out =>
    rw [hx] at h
    obtain ⟨hp, hc⟩ := Prod.mk.inj h
    cases out with
    | yield out s =>
      obtain ⟨hanswer, hpull, hdone⟩ := resume_of_outcome hc (body.resume s i) (by rw [hp]; rfl)
      exact ⟨hanswer, Prod.ext hpull hdone⟩
    | finish out =>
      rw [resume_of_done hc]
      exact ⟨rfl, h⟩
    | crash m =>
      obtain ⟨hanswer, hpull, hdone⟩ := resume_of_ended hc hp body i
      exact ⟨hanswer, Prod.ext hpull hdone⟩

/-! ## Calls -/

def Call.perform (body : Body σ I O) (c : Coroutine σ I) : Call I → Coroutine σ I
  | resume i => (c.resume body i).2
  | stop => c.stop

/-- A new coroutine after some calls. -/
def after (body : Body σ I O) (calls : List (Call I)) : Coroutine σ I := calls.foldl (Call.perform body) {}

variable {calls : List (Call I)}

theorem after_concat (body : Body σ I O) (calls : List (Call I)) (k : Call I) :
    after body (calls ++ [k]) = k.perform body (after body calls) := List.foldl_append ..

theorem done_stop (c : Coroutine σ I) : c.stop.done = true := by
  unfold stop
  split
  · assumption
  · rfl

theorem perform_of_done (hc : c.done = true) (body : Body σ I O) (k : Call I) : k.perform body c = c := by
  cases k with
  | resume i => exact congrArg Prod.snd (resume_of_done hc body i)
  | stop => exact stop_of_done hc

theorem foldl_of_done (hc : c.done = true) (body : Body σ I O) (calls : List (Call I)) :
    calls.foldl (Call.perform body) c = c := by
  induction calls with
  | nil => rfl
  | cons k calls ih => rw [List.foldl_cons, perform_of_done hc, ih]

theorem done_of_stopped (body : Body σ I O) (h : calls.any Call.isStop = true) : (after body calls).done = true := by
  induction calls using List.reverseRecOn with
  | nil => exact absurd h Bool.false_ne_true
  | append_singleton calls k ih =>
    rw [after_concat]
    cases k with
    | resume i =>
      have hbefore : calls.any Call.isStop = true := by simpa [Call.isStop] using h
      rw [perform_of_done (ih hbefore)]
      exact ih hbefore
    | stop => exact done_stop _

theorem standing_after (body : Body σ I O) (h : calls.any Call.isStop = false) :
    ((after body calls).pull, (after body calls).done) = standing body (inputs calls) := by
  induction calls using List.reverseRecOn with
  | nil => rfl
  | append_singleton calls k ih =>
    cases k with
    | resume i =>
      have hbefore : calls.any Call.isStop = false := by simpa [Call.isStop] using h
      rw [after_concat, inputs_concat]
      exact (resume_standing (ih hbefore) i).2
    | stop => simp [Call.isStop] at h

theorem after_stop_cons (body : Body σ I O) (calls : List (Call I)) : after body (.stop :: calls) = stop {} :=
  foldl_of_done rfl body calls

/-- What a coroutine answers, whatever was called before from outside its body. As long as it was not stopped, a
resumption answers what the body comes to when it is given all inputs in order, and a body that has yielded waits in that
state. A coroutine is done once it was stopped or has answered so, and stays done: no body runs any more, and resuming it
gives the default output. A body that is stopped before it was resumed is never entered. -/
theorem calls_exact (body : Body σ I O) (calls : List (Call I)) :
    let c := after body calls
    (∀ i, (c.resume body i).1 =
      if calls.any Call.isStop then .ok (default, true) else answer (body.replay (inputs calls ++ [i]))) ∧
    (∀ out s, calls.any Call.isStop = false → body.replay (inputs calls) = some (.yield out s) →
      c.pull = .waiting (.inside s)) ∧
    (c.done = true ↔
      calls.any Call.isStop = true ∨ inputs calls ≠ [] ∧ ∃ out, answer (body.replay (inputs calls)) = .ok (out, true)) ∧
    (c.done = true → (∀ later, after body (calls ++ later) = c) ∧
      ∀ (other : Body σ I O) i, c.resume other i = (.ok (default, true), c)) ∧
    (calls.head? = some .stop → c.pull = .dropped ∧ ∀ other : Body σ I O, after other calls = c) := by
  intro c
  refine ⟨fun i => ?_, fun out s hstop hx => ?_, ?_, fun hc => ⟨fun later => ?_, fun other i => resume_of_done hc other i⟩,
    fun hhead => ?_⟩
  · split_ifs with hstop
    · rw [resume_of_done (done_of_stopped body hstop)]
    · exact (resume_standing (standing_after body (Bool.eq_false_iff.2 hstop)) i).1
  · have hstanding := standing_after body hstop
    have hl : inputs calls ≠ [] := by
      rintro hl
      rw [hl] at hx
      cases hx
    rw [standing, if_neg hl, hx] at hstanding
    exact congrArg Prod.fst hstanding
  · cases hstop : calls.any Call.isStop with
    | false =>
      rw [← standing_done, ← standing_after body hstop]
      simp [c]
    | true => exact iff_of_true (done_of_stopped body hstop) (.inl rfl)
  · exact (List.foldl_append ..).trans (foldl_of_done hc body later)
  · obtain ⟨rest, rfl⟩ : ∃ rest, calls = .stop :: rest := by
      cases calls with
      | nil => cases hhead
      | cons k rest =>
        cases hhead
        exact ⟨rest, rfl⟩
    rw [show c = stop {} from after_stop_cons body rest]
    exact ⟨rfl, fun other => after_stop_cons other rest⟩

/-- A body that adds up its inputs until it gets a zero, and what it answers. -/
theorem calls_exact_sum :
    let body : Body Int Int Int := ⟨fun i => .yield i i, fun s i => if i = 0 then .finish s else .yield (s + i) (s + i)⟩
    (after body [.resume 3, .resume 4]).pull = .waiting (.inside 7) ∧
      ((after body [.resume 3, .resume 4]).resume body 0).1 = .ok (7, true) ∧
      (after body [.resume 3, .resume 4, .resume 0]).done = true ∧
      after body [.resume 3, .resume 4, .resume 0, .resume 5, .stop] = after body [.resume 3, .resume 4, .resume 0] ∧
      (after body [.stop, .resume 3]).pull = .dropped := by
  intro body
  have hwaiting := calls_exact body [.resume 3, .resume 4]
  have hover := calls_exact body [.resume 3, .resume 4, .resume 0]
  have hdropped := calls_exact body [.stop, .resume 3]
  have hdone := hover.2.2.1.2 (.inr ⟨by decide, 7, rfl⟩)
  exact ⟨hwaiting.2.1 7 7 rfl rfl, hwaiting.1 0, hdone, (hover.2.2.2.1 hdone).1 [.resume 5, .stop],
    (hdropped.2.2.2.2 rfl).1⟩

end RubyMachine.Coroutine
