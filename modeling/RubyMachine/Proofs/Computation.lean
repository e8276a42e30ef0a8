import RubyMachine.Machine.State

/-! Computations applied to a state: what each primitive gives, for `simp` to run them. -/

namespace RubyMachine

variable {ε σ α β : Type}

@[simp] theorem bind_apply (x : EStateM ε σ α) (f : α → EStateM ε σ β) (s : σ) :
    (x >>= f) s = match x s with
      | .ok a t => f a t
      | .error e t => .error e t := rfl

@[simp] theorem map_apply (f : α → β) (x : EStateM ε σ α) (s : σ) :
    (f <$> x) s = match x s with
      | .ok a t => .ok (f a) t
      | .error e t => .error e t := rfl

@[simp] theorem pure_apply (a : α) (s : σ) : (pure a : EStateM ε σ α) s = .ok a s := rfl

@[simp] theorem get_apply (s : σ) : (get : EStateM ε σ σ) s = .ok s s := rfl

@[simp] theorem modify_apply (f : σ → σ) (s : σ) : (modify f : EStateM ε σ Unit) s = .ok () (f s) := rfl

@[simp] theorem modifyGet_apply (f : σ → α × σ) (s : σ) :
    (modifyGet f : EStateM ε σ α) s = .ok (f s).1 (f s).2 := rfl

@[simp] theorem throw_apply (e : ε) (s : σ) : (throw e : EStateM ε σ α) s = .error e s := rfl

@[simp] theorem ite_apply' (p : Prop) [Decidable p] (x y : EStateM ε σ α) (s : σ) :
    (if p then x else y) s = if p then x s else y s := by
  split <;> rfl

theorem bind_of_ok {x : EStateM ε σ α} {f : α → EStateM ε σ β} {s t : σ} {a : α} (h : x s = .ok a t) :
    (x >>= f) s = f a t := by
  rw [bind_apply, h]

theorem bind_of_error {x : EStateM ε σ α} {f : α → EStateM ε σ β} {s t : σ} {e : ε} (h : x s = .error e t) :
    (x >>= f) s = .error e t := by
  rw [bind_apply, h]

theorem exists_of_bind {x : EStateM ε σ α} {f : α → EStateM ε σ β} {s t : σ} {b : β} (h : (x >>= f) s = .ok b t) :
    ∃ a u, x s = .ok a u ∧ f a u = .ok b t := by
  rw [bind_apply] at h
  split at h
  · exact ⟨_, _, ‹_›, h⟩
  · cases h

/-- The state that a computation leaves, also when it ends in an error. -/
def after (x : EStateM ε σ α) (s : σ) : σ :=
  match x s with
  | .ok _ t | .error _ t => t

theorem after_of_ok {x : EStateM ε σ α} {s t : σ} {a : α} (h : x s = .ok a t) : after x s = t := by
  simp [after, h]

theorem after_of_error {x : EStateM ε σ α} {s t : σ} {e : ε} (h : x s = .error e t) : after x s = t := by
  simp [after, h]

/-- What a computation gives, unless it ends in an error. -/
def result? (x : EStateM ε σ α) (s : σ) : Option α :=
  match x s with
  | .ok a _ => some a
  | .error _ _ => none

theorem eq_ok_of_result? {x : EStateM ε σ α} {s : σ} {a : α} (h : result? x s = some a) : x s = .ok a (after x s) := by
  unfold result? at h
  cases hx : x s with
  | ok b t =>
    rw [hx] at h
    rw [after_of_ok hx, Option.some.inj h]
  | error e t =>
    rw [hx] at h
    cases h

theorem after_bind {P : σ → Prop} {x : EStateM ε σ α} {f : α → EStateM ε σ β} {s : σ}
    (hx : P (after x s)) (hf : ∀ a t, x s = .ok a t → P (after (f a) t)) : P (after (x >>= f) s) := by
  cases h : x s with
  | ok a t => simpa [after, h] using hf a t h
  | error e t => simpa [after, h] using hx

theorem run_liftM_bind (x : Exec α) (f : α → Attempt β) : (liftM x >>= f : Attempt β).run = x >>= fun a => (f a).run :=
  ExceptT.run_bind_lift x f

namespace Attempt

variable {x : Attempt α} {y : Exec α} {f : α → Attempt β} {m m' : Machine} {a : α} {d : Defect} {e : Failure}

theorem run_bind_ok (hx : x.run m = .ok (.ok a) m') : (x >>= f).run m = (f a).run m' := by
  rw [ExceptT.run_bind]
  exact bind_of_ok hx

/-- A failure in the first step is the result. -/
theorem run_bind_failed (hx : x.run m = .ok (.error e) m') : (x >>= f).run m = .ok (.error e) m' := by
  rw [ExceptT.run_bind]
  exact bind_of_ok hx

theorem run_bind_error (hx : x.run m = .error d m') : (x >>= f).run m = .error d m' := by
  rw [ExceptT.run_bind]
  exact bind_of_error hx

theorem run_lift (hy : y m = .ok a m') : (liftM y : Attempt α).run m = .ok (.ok a) m' := by
  rw [ExceptT.run_liftM]
  exact bind_of_ok (f := fun a => pure (Except.ok a)) hy

theorem run_lift_bind (hy : y m = .ok a m') : (liftM y >>= f : Attempt β).run m = (f a).run m' :=
  (congrFun (run_liftM_bind y f) m).trans (bind_of_ok hy)

theorem run_lift_error (hy : y m = .error d m') : (liftM y : Attempt α).run m = .error d m' := by
  rw [ExceptT.run_liftM]
  exact bind_of_error hy

/-- A defect in the first step is the end. -/
theorem run_lift_bind_error (hy : y m = .error d m') : (liftM y >>= f : Attempt β).run m = .error d m' :=
  (congrFun (run_liftM_bind y f) m).trans (bind_of_error hy)

end Attempt

end RubyMachine
