import RubyMachine.Proofs.Threads.Calls

/-! Fibers and enumerations: where one thread is left for another, and what is left to be done there. -/

namespace RubyMachine

theorem Machine.Steady.mark {m m' : Machine} (h : m.Steady m') : m'.context.mark = m.context.mark := by
  rw [Context.mark, h.frame, h.temps, Context.mark]

namespace Exec

open Machine

variable {α : Type} {b : Bool} {p : Mark} {m : Machine} {id : Nat}

/-- Goes on after a steady computation; the length of the stack does not matter. -/
theorem Calls.after {x : Exec α} {f : α → Exec Control} (hx : x.Stays)
    (hf : ∀ a m', m'.context.mark = m.context.mark → Calls b (f a) p m') : Calls b (x >>= f) p m :=
  .go hx fun a m' _ hs => hf a m' hs.mark

theorem Calls.value (v : Value) (hp : m.context.mark = p) : Calls b (return .value v) p m :=
  .deliver _ (hp ▸ m.context.exactMark_meets)

theorem Calls.failure (f : Failure) (hp : m.context.mark = p) : Calls b (return .failure f) p m :=
  .deliver _ (hp ▸ m.context.exactMark_meets)

/-- A value is held outside of the stack from here on. -/
theorem Calls.protect {v : Value} {f : Unit → Exec Control}
    (hf : Calls b (f ()) p { m with context.temps := v :: m.context.temps }) : Calls b (Exec.protect v >>= f) p m :=
  .bind fun _ _ h => by
    cases h
    exact ⟨p, .of_eq rfl rfl rfl rfl rfl (.refl p), hf⟩

theorem Calls.release {f : Unit → Exec Control}
    (hf : Calls b (f ()) p { m with context.temps := m.context.temps.tail }) : Calls b (Exec.release >>= f) p m :=
  .bind fun _ _ h => by
    cases h
    exact ⟨p, .of_eq rfl rfl rfl rfl rfl (.refl p), hf⟩

/-! ## Steady computations on fibers -/

theorem pack_stays (vs : List Value) : (pack vs).Stays :=
  stays_of_keeping 0 fun m => (Steady.logic m).pack fun _ _ => trivial

theorem newFiber_stays (body : Value) (iteration : Option Iteration) : (newFiber body iteration).Stays :=
  stays_of_keeping 0 fun m => (Steady.logic m).newFiber trivial (by
    cases iteration with
    | none => trivial
    | some i => exact ⟨trivial, fun _ _ => trivial⟩)

theorem setEnumeratorFiber_stays (v f : Value) : (setEnumeratorFiber v f).Stays :=
  stays_of_keeping 0 fun m => (Steady.logic m).setEnumeratorFiber trivial trivial

theorem releaseFiber_stays (id : Nat) : (releaseFiber id).Stays :=
  stays_of_keeping 0 fun m => (Steady.logic m).releaseFiber trivial

/-! ## Entering a fiber -/

theorem getD_modify_ne {a : Array Fiber} {i : Nat} (f : Fiber → Fiber) (hi : i ≠ id) :
    (a.modify id f).getD i default = a.getD i default :=
  (Logic.getD_modify a id i f).resolve_right fun h => hi h.1.symm

theorem getD_modify_self {a : Array Fiber} (f : Fiber → Fiber) (hi : id < a.size) :
    (a.modify id f).getD id default = f (a.getD id default) := by
  simp only [Array.getD_eq_getD_getElem?, Array.getElem?_modify, if_true, Array.getElem?_eq_getElem hi,
    Option.map_some, Option.getD_some]

theorem Calls.enter {x : Context} {f : Unit → Exec Control} (hid : id < m.fibers.size)
    (ha : (m.fibers.getD id default).active = false) (hs : (m.fibers.getD id default).state ≠ .dead)
    (hx : (m.fibers.getD id default).context = some x ∨
      (m.fibers.getD id default).context = none ∧ x.fiber = some id ∧ x.konts = [])
    (hf : ∀ m', m'.context = x → Calls false (f ()) x.mark m') :
    Calls true (enterFiber id x >>= f) m.context.mark m := by
  intro hn c m' h
  obtain ⟨_, m₁, he, h₁⟩ := exists_of_bind h
  have entered : m.Enters id m₁ ∧ m₁.context = x := by
    cases he
    refine ⟨⟨hid, ha, hs, hx, rfl, Array.size_modify, fun _ h => h, ?_, ?_, fun i hi => getD_modify_ne _ hi⟩, rfl⟩
    · dsimp only
      rw [getD_modify_self _ hid]
    · dsimp only
      rw [getD_modify_self _ hid]
  obtain ⟨hm, rfl⟩ := entered
  cases hf m₁ rfl (hm.numbered hn) c m' h₁ with
  | on hd hc => exact .enter (.refl _ _) hm hd hc

/-- What a fiber first does is left to be done when what it calls comes back. -/
theorem startFiber_calls (f : Fiber) (args : List Value) (hp : m.context.mark = p) :
    Calls b (startFiber f args) p m := by
  unfold startFiber
  split
  · exact pushOn trivial rfl rfl fun m' h => blockOn _ _ (h.trans hp)
  · refine pushOn trivial rfl rfl fun m₁ h₁ => .after ?_ fun emit m₂ h₂ => sendOn _ _ _ _ _ (h₂.trans (h₁.trans hp))
    exact stays_of_keeping 0 fun m => (Steady.logic m).allocProc trivial trivial

theorem Calls.look {f : Machine → Exec Control} (hf : Calls b (f m) p m) : Calls b (get >>= f) p m := hf

theorem Calls.fiber {f : Fiber → Exec Control} (hf : ∀ x, m.fibers.getD id default = x → Calls b (f x) p m) :
    Calls b (Exec.fiber id >>= f) p m := hf _ rfl

theorem takeStack_stays : Stays (modifyGet fun m =>
      let (s, p) := m.pool.take
      (s, { m with pool := p })) := by
  intro m s m' h
  cases h
  exact .of_stack _ rfl rfl rfl rfl

theorem Calls.demand {x : α} {f : α → Exec Control} (hf : Calls b (f x) p m) :
    Calls b (Exec.demand (some x) >>= f) p m := hf

theorem resumeFiber_calls (hid : id < m.fibers.size) (args : List Value) (hp : m.context.mark = p) :
    Calls true (resumeFiber id args) p m := by
  obtain ⟨f, here⟩ : ∃ f, m.fibers[id]? = some f := ⟨_, Array.getElem?_eq_getElem hid⟩
  have hf : m.fibers.getD id default = f := by rw [Array.getD_eq_getD_getElem?, here, Option.getD_some]
  refine .look ?_
  rw [here]
  refine .demand ?_
  dsimp only
  split
  · exact .failure _ hp
  rename_i hs
  split
  · exact .failure _ hp
  rename_i ha
  have ha := Bool.eq_false_of_not_eq_true ha
  rw [← hf] at hs ha
  split
  · rename_i x hx
    rw [← hf] at hx
    subst hp
    refine .enter hid ha hs (.inl hx) fun m₁ h₁ => ?_
    exact .after (pack_stays _) fun v m₂ h₂ => .value v (by rw [h₂, h₁])
  · rename_i hx
    rw [← hf] at hx
    subst hp
    refine .bind fun s m₁ h => ⟨m.context.mark, .of_steady (takeStack_stays _ _ _ h), ?_⟩
    cases h
    exact .enter hid ha hs (.inr ⟨hx, rfl, rfl⟩) fun m₂ h₂ => startFiber_calls _ _ (congrArg Context.mark h₂)

/-! ## Leaving a fiber -/

theorem leaveFiber_ok {u : Unit} {m' : Machine} (h : leaveFiber id m = .ok u m') :
    ∃ x rest, m.waiting = x :: rest ∧ m' = { m with
      fibers := m.fibers.modify id fun f => { f with active := false }
      context := x
      waiting := rest } := by
  obtain ⟨_, _, hm, h₁⟩ := exists_of_bind h
  cases hm
  obtain ⟨_, _, hg, h₂⟩ := exists_of_bind h₁
  cases hg
  cases hw : m.waiting with
  | nil =>
    simp only [hw] at h₂
    cases h₂
  | cons x rest =>
    simp only [hw] at h₂
    cases h₂
    exact ⟨x, rest, rfl, rfl⟩

/-- A thread is left once what becomes of its fiber is noted. -/
theorem leaves_of {x : Context} {rest : List Context} {g : Fiber → Fiber} {pool : StackPool}
    (hid : m.context.fiber = some id) (hw : m.waiting = x :: rest)
    (hl : ∀ f, (g f).state = .dead ∨ (g f).context = some m.context) (hd : ∀ f, f.state = .dead → (g f).state = .dead)
    (ho : ∀ f y, (g f).context = some y → f.context = some y ∨
      y.fiber = some id ∧ (y.konts = m.context.konts ∨ y.konts = [])) :
    m.Leaves id { m with fibers := m.fibers.modify id g, context := x, waiting := rest, pool } where
  fiber := hid
  waiting := hw
  size := Array.size_modify
  objects _ h := h
  left hi := by
    dsimp only
    rw [getD_modify_self g hi]
    exact hl _
  dead h := by
    dsimp only
    rcases Logic.getD_modify m.fibers id id g with he | ⟨_, he⟩
    · exact he ▸ h
    · exact he ▸ hd _ h
  own y h := by
    dsimp only at h
    rcases Logic.getD_modify m.fibers id id g with he | ⟨_, he⟩
    · exact .inl (he ▸ h)
    · exact ho _ y (he ▸ h)
  others i hi := getD_modify_ne g hi

theorem modify_modify (a : Array Fiber) (id : Nat) (f g : Fiber → Fiber) :
    (a.modify id f).modify id g = a.modify id fun x => g (f x) := by
  refine Array.ext_getElem? fun i => ?_
  simp only [Array.getElem?_modify]
  split
  · rw [Option.map_map]
    rfl
  · rfl

theorem suspend_calls (v : Value) (hp : m.context.mark = p) : Calls true (suspend v) p m := by
  refine .look ?_
  dsimp only
  split
  · exact .failure _ hp
  · rename_i id hid
    intro _ c m' h
    obtain ⟨_, _, hu, h₁⟩ := exists_of_bind h
    cases hu
    obtain ⟨_, _, hl, h₂⟩ := exists_of_bind h₁
    cases h₂
    obtain ⟨x, rest, hw, rfl⟩ := leaveFiber_ok hl
    dsimp only
    rw [modify_modify]
    subst hp
    refine .suspend (.refl m _) (leaves_of hid hw (fun _ => .inr rfl) (fun _ h => h) ?_)
    intro f y hy
    cases hy
    exact .inr ⟨hid, .inl rfl⟩

theorem finishFiber_calls (r : Except Failure Value) : Calls true (finishFiber r) p m := by
  refine .look ?_
  dsimp only
  split
  · intro _ c m' h
    cases h
  · rename_i id hid
    intro _ c m' h
    obtain ⟨_, _, hl, h₁⟩ := exists_of_bind h
    obtain ⟨x, rest, hw, rfl⟩ := leaveFiber_ok hl
    have finished (r : Except Failure Value) : m.Goes p true (.deliver r) { m with
        fibers := (m.fibers.modify id fun f => { f with active := false }).modify id fun f => { f with state := .dead }
        context := x
        waiting := rest
        pool := m.pool.put m.context.stack } := by
      rw [modify_modify]
      refine .finish (.refl m p) (leaves_of hid hw (fun _ => .inl rfl) (fun _ _ => rfl) fun f y h => .inl h) fun hi => ?_
      rw [getD_modify_self _ hi]
    cases r with
    | ok v =>
      cases h₁
      exact finished _
    | error f =>
      cases h₁
      exact finished _

theorem abandonRunning_calls (id : Nat) : Calls true (abandonRunning id) p m := by
  refine .look ?_
  dsimp only
  split
  · intro _ c m' h
    cases h
  rename_i hid
  refine .fiber fun f hf => ?_
  intro _ c m' h
  obtain ⟨_, _, hl, h₁⟩ := exists_of_bind h
  obtain ⟨x, rest, hw, rfl⟩ := leaveFiber_ok hl
  have hid := not_not.mp hid
  cases hy : f.lastYield with
  | some v =>
    simp only [hy] at h₁
    cases h₁
    dsimp only
    rw [modify_modify]
    refine .finish (.refl m p) (leaves_of hid hw (fun _ => .inl rfl) (fun _ _ => rfl) ?_) fun hi => ?_
    · intro f y h
      cases h
      exact .inr ⟨hid, .inr rfl⟩
    · rw [getD_modify_self _ hi]
  | none =>
    simp only [hy] at h₁
    cases h₁
    dsimp only
    rw [modify_modify]
    refine .finish (.refl m p) (leaves_of hid hw (fun _ => .inl rfl) (fun _ _ => rfl) fun f y h => .inl h) fun hi => ?_
    rw [getD_modify_self _ hi]

/-! ## Enumerations -/

theorem deref?_ok {v : Value} {o : Object} {m' : Machine} (h : deref? v m = .ok (some o) m') :
    m' = m ∧ m.heap.read v.toRef = .ok o := by
  unfold deref? at h
  split at h
  · rename_i hv
    obtain ⟨o', m₁, ho, h₁⟩ := exists_of_bind h
    cases h₁
    obtain ⟨r, m₂, hr, h₂⟩ := exists_of_bind ho
    obtain ⟨hr, rfl⟩ := lift_ok hr
    obtain ⟨_, _, hg, h₃⟩ := exists_of_bind h₂
    cases hg
    obtain ⟨hread, rfl⟩ := lift_ok h₃
    rw [Value.asRef, if_pos hv] at hr
    cases hr
    exact ⟨rfl, hread⟩
  · cases h

theorem asFiber?_ok {v : Value} {m' : Machine} (h : asFiber? v m = .ok (some id) m') :
    m' = m ∧ m.heap.read v.toRef = .ok (.fiber id) := by
  obtain ⟨o, m₁, ho, h₁⟩ := exists_of_bind h
  split at h₁
  · cases h₁
    exact deref?_ok ho
  · cases h₁

theorem fiberOf_ok {v : Value} {m' : Machine} (h : fiberOf v m = .ok id m') : m' = m ∧ m.HasFiber id := by
  obtain ⟨r, m₁, hr, h₁⟩ := exists_of_bind h
  cases r with
  | none => cases h₁
  | some i =>
    cases h₁
    obtain ⟨rfl, hread⟩ := asFiber?_ok hr
    exact ⟨rfl, _, _, (Heap.read_eq_ok.mp hread).2.2.2.1⟩

theorem enumeratorOf_ok {v : Value} {e : Enumerator} {m' : Machine} (h : enumeratorOf v m = .ok e m') :
    m' = m ∧ m.heap.read v.toRef = .ok (.enumerator e) := by
  obtain ⟨r, m₁, hr, h₁⟩ := exists_of_bind h
  obtain ⟨o, m₂, ho, h₂⟩ := exists_of_bind hr
  split at h₂
  · cases h₂
    cases h₁
    exact deref?_ok ho
  · cases h₂
    cases h₁

/-- A fiber that code names is there. -/
theorem Calls.fiberOf {v : Value} {f : Nat → Exec Control} (hf : ∀ id < m.fibers.size, Calls b (f id) p m) :
    Calls b (Exec.fiberOf v >>= f) p m := by
  intro hn c m' h
  obtain ⟨id, m₁, hv, h₁⟩ := exists_of_bind h
  obtain ⟨rfl, hid⟩ := fiberOf_ok hv
  exact hf id (hn.objects id hid) hn c m' h₁

theorem enumeratorNext_calls (self : Value) (e : Enumerator) (hp : m.context.mark = p) :
    Calls true (enumeratorNext self e) p m := by
  have next (f : Value) (m : Machine) (hp : m.context.mark = p) : Calls true (do
      let id ← fiberOf f
      if (← fiber id).state = .dead then return .fail .exhausted
      resumeFiber id []) p m := by
    refine .fiberOf fun id hid => .fiber fun x _ => ?_
    split
    · exact .failure _ hp
    · exact resumeFiber_calls hid _ hp
  unfold enumeratorNext
  dsimp only
  split
  · refine .after (newFiber_stays _ _) fun f m₁ h₁ => ?_
    refine .after (setEnumeratorFiber_stays _ _) fun _ m₂ h₂ => ?_
    exact next f m₂ (h₂.trans (h₁.trans hp))
  · exact next _ m hp

theorem drives_pull {d : Drive} {n : Nat} (hd : d.fiber < n) : ∀ id ∈ drivenFibers [.pull d], id < n := by
  intro id hid
  rw [List.mem_singleton.mp hid]
  exact hd

theorem pull_calls (d : Drive) (hd : d.fiber < m.fibers.size) (hp : (Kont.pull d).after m.context.mark = p) :
    Calls true (pull d) p m :=
  .pushKont (q := m.context.mark) trivial (hp ▸ .refl _) (drives_pull hd)
    (resumeFiber_calls (m := { m with context.konts := .pull d :: m.context.konts }) hd _ rfl)

/-- The fiber of an enumeration is held until the enumeration is over. -/
theorem drive_calls (e : Enumerator) (block : Block) (mode : DriveMode)
    (hp : ∀ id f, (Kont.pull ⟨id, block, mode⟩).after ⟨none, m.context.frame, f :: m.context.temps⟩ = p) :
    Calls true (drive e block mode) p m := by
  refine .after (newFiber_stays _ _) fun f m₁ h₁ => .protect ?_
  refine .fiberOf fun id hid => pull_calls _ hid ?_
  rw [← hp id f]
  exact congrArg (fun q : Mark => (Kont.pull ⟨id, block, mode⟩).after ⟨none, q.frame, f :: q.temps⟩) h₁

theorem endDrive_calls (d : Drive) {f : Unit → Exec Control}
    (hf : ∀ m', m'.context.mark = (Kont.pull d).after m.context.mark → Calls b (f ()) p m') :
    Calls b (endDrive d >>= f) p m := by
  rw [endDrive, bind_assoc]
  refine .after (releaseFiber_stays _) fun _ m₁ h₁ => ?_
  rw [bind_assoc]
  refine .release ?_
  rw [← h₁] at hf
  cases hm : d.mode with
  | map out => exact .release (hf _ (by simp only [Kont.after, hm, Context.mark]))
  | each => exact hf _ (by simp only [Kont.after, hm, Context.mark])
  | withIndex i => exact hf _ (by simp only [Kont.after, hm, Context.mark])

theorem feed_calls (d : Drive) (v : Value) (hd : d.fiber < m.fibers.size) (hp : (Kont.pull d).after m.context.mark = p) :
    Calls b (feed d v) p m := by
  have fed (d : Drive) (vs : List Value) (hd : d.fiber < m.fibers.size) (hp : (Kont.feed d).after m.context.mark = p) :
      Calls b (do
        pushKont (.feed d)
        callBlock (some d.block) vs) p m :=
    .pushKont trivial (hp ▸ .refl _) (drives_pull hd) (blockOn _ _ rfl)
  unfold feed
  split
  · rename_i i hm
    split
    · exact endDrive_calls d fun m' h => .failure _ (h.trans hp)
    · refine fed { d with mode := .withIndex (i + 1) } _ hd ?_
      rw [← hp]
      simp only [Kont.after, hm]
  · exact fed d _ hd hp

end Exec

end RubyMachine
