import RubyMachine.Proofs.Threads.Switching
import RubyMachine.Proofs.Threads.Stacks

/-! The account that is kept of fibers and their stacks: whatever a machine does with its fibers, every stack has one
owner, and a dead fiber stays dead. -/

namespace RubyMachine

open Exec

/-- A fiber that is given up. -/
def Fiber.ended (f : Fiber) : Fiber := { f with state := .dead, context := none }

/-- Threads and stacks are in order, and some fibers are dead. -/
structure Machine.Accounted (dead : Nat → Prop) (loose : List Nat) (m : Machine) : Prop where
  chained : Chained (m.chain.map Context.fiber) m.fibers
  tallied : m.Tallied loose
  dead : ∀ id, dead id → id < m.fibers.size ∧ (m.fibers.getD id default).state = .dead

namespace Machine.Accounted

variable {dead : Nat → Prop} {l l' : List Nat} {m m' : Machine} {id : Nat} {f : Fiber → Fiber}

theorem calm (h : m.Accounted dead l) (hc : m.Calm m') (ho : m'.options = m.options) : m'.Accounted dead l where
  chained := by
    have chain : m'.chain.map Context.fiber = m.chain.map Context.fiber := by
      simp only [chain, List.map_cons, hc.fiber, hc.waiting]
    rw [chain, hc.fibers]
    exact h.chained
  tallied := h.tallied.calm hc ho
  dead i hi := hc.fibers ▸ h.dead i hi

theorem dead_modify (h : m.Accounted dead l) (id : Nat) (hf : dead id → (f (m.fibers.getD id default)).state = .dead)
    (i : Nat) (hi : dead i) : i < (m.fibers.modify id f).size ∧ ((m.fibers.modify id f).getD i default).state = .dead := by
  rw [Array.size_modify]
  refine ⟨(h.dead i hi).1, ?_⟩
  rcases Logic.getD_modify m.fibers id i f with he | ⟨rfl, he⟩
  · exact he ▸ (h.dead i hi).2
  · exact he ▸ hf hi

/-! ## Giving up fibers -/

theorem ended (h : m.Accounted dead l) (id : Nat) :
    { m with fibers := m.fibers.modify id Fiber.ended }.Accounted dead
      ((m.fibers.getD id default).context.toList.map Context.stackId ++ l) where
  chained := h.chained.modify id (fun _ => rfl) fun _ => .inr rfl
  tallied := h.tallied.loosen id fun _ => rfl
  dead := h.dead_modify id fun _ => rfl

theorem put {s : Stack} (h : m.Accounted dead (s.id :: l)) : { m with pool := m.pool.put s }.Accounted dead l :=
  { h with tallied := h.tallied.put }

end Machine.Accounted

/-- The stack that is to be given back. -/
def Disposal.stackId? : Disposal → Option Nat
  | .fiber _ => none
  | .stack s => some s.id

/-- What is to be given up with a thread that was put aside: the fibers that it pulls values from, then its stack. -/
def Context.remains (c : Context) : List Disposal :=
  (drivenFibers c.konts).map Disposal.fiber ++ [Disposal.stack c.stack]

/-- What it takes to give up all fibers that were put aside. -/
def Fiber.burden (fibers : Array Fiber) : Nat := ((suspended fibers).map fun c => c.konts.length + 1).sum

namespace Machine.Accounted

variable {dead : Nat → Prop} {l l' : List Nat} {m m' : Machine} {id : Nat} {f : Fiber → Fiber}

/-- A fiber that is given up takes a burden with it, which is enough for the fibers that it pulls values from, and
for its stack. -/
theorem burden_ended (fibers : Array Fiber) (id : Nat) :
    ((fibers.getD id default).context.toList.map fun c => c.konts.length + 1).sum +
      Fiber.burden (fibers.modify id Fiber.ended) = Fiber.burden fibers := by
  by_cases hid : id < fibers.size
  case neg =>
    have hid := not_lt.mp hid
    rw [modify_of_le _ hid, Array.getD_eq_getD_getElem?, Array.getElem?_eq_none hid]
    exact Nat.zero_add _
  obtain ⟨a, b, hold, hnew⟩ := Fiber.suspended_split hid
  rw [Fiber.burden, Fiber.burden, hold, hnew]
  simp only [Fiber.ended, Option.toList_none, List.nil_append, List.map_append, List.sum_append]
  omega

theorem dispose_fiber (fuel id : Nat) (rest : List Disposal) (m : Machine) :
    Exec.dispose (fuel + 1) (.fiber id :: rest) m =
      Exec.dispose fuel ((m.fibers.getD id default).context.toList.flatMap Context.remains ++ rest)
        { m with fibers := m.fibers.modify id Fiber.ended } := by
  have found : fiber id m = .ok (m.fibers.getD id default) m := rfl
  have ended : (modifyFiber id fun f => { f with state := .dead, context := none }) m =
      .ok () { m with fibers := m.fibers.modify id Fiber.ended } := rfl
  rw [Exec.dispose, bind_of_ok found, bind_of_ok ended]
  cases (m.fibers.getD id default).context with
  | none => rfl
  | some c => simp only [Option.toList_some, List.flatMap_cons, List.flatMap_nil, List.append_nil, Context.remains,
      List.append_assoc, List.singleton_append]

/-- All that is to be given up is given up in the end. -/
theorem dispose (fuel : Nat) (ds : List Disposal) (h : m.Accounted dead (ds.filterMap Disposal.stackId?))
    (hf : ds.length + Fiber.burden m.fibers ≤ fuel) :
    ∃ m', Exec.dispose fuel ds m = .ok () m' ∧ m'.Accounted dead [] := by
  induction fuel generalizing ds m with
  | zero =>
    have hds : ds = [] := List.length_eq_zero_iff.mp (by omega)
    subst hds
    exact ⟨m, rfl, h⟩
  | succ fuel ih =>
    cases ds with
    | nil => exact ⟨m, rfl, h⟩
    | cons d rest =>
      rw [List.length_cons] at hf
      cases d with
      | stack s => exact ih rest h.put (by dsimp only; omega)
      | fiber id =>
        rw [dispose_fiber]
        have hended := h.ended id
        have hb := burden_ended m.fibers id
        generalize (m.fibers.getD id default).context = x at hended hb
        have loose : (x.toList.flatMap Context.remains ++ rest).filterMap Disposal.stackId? =
            x.toList.map Context.stackId ++ rest.filterMap Disposal.stackId? := by
          cases x with
          | none => rfl
          | some c =>
            simp [Context.remains, List.filterMap_append, List.filterMap_map, Function.comp_def, Disposal.stackId?, Context.stackId]
        have work : (x.toList.flatMap Context.remains).length ≤ (x.toList.map fun c => c.konts.length + 1).sum := by
          cases x with
          | none => exact le_rfl
          | some c =>
            have driven : (drivenFibers c.konts).length ≤ c.konts.length := List.length_filterMap_le _ _
            simpa [Context.remains] using driven
        refine ih _ (loose ▸ hended) ?_
        rw [List.length_append]
        dsimp only
        omega

/-- There is enough time to give up all fibers. -/
theorem burden_lt_disposalFuel (m : Machine) : ∃ n, disposalFuel m = .ok n m ∧ 1 + Fiber.burden m.fibers ≤ n := by
  refine ⟨_, rfl, ?_⟩
  have counted (fs : List Fiber) (n : Nat) : n + ((fs.filterMap Fiber.context).map fun c => c.konts.length + 1).sum ≤
      fs.foldl (fun n f => n + (1 + (f.context.map fun c => c.konts.length + 1).getD 0)) n := by
    induction fs generalizing n with
    | nil => exact le_rfl
    | cons f fs ih =>
      refine le_trans ?_ (ih _)
      rw [Fiber.filterMap_cons_toList]
      dsimp only
      cases f.context with
      | none =>
        simp only [Option.toList_none, List.nil_append, Option.map_none, Option.getD_none]
        omega
      | some c =>
        simp only [Option.toList_some, List.map_append, List.map_cons, List.map_nil, List.sum_append, List.sum_cons,
          List.sum_nil, Option.map_some, Option.getD_some]
        omega
  rw [← Array.foldl_toList, Fiber.burden, Fiber.suspended_eq]
  exact counted _ 1

theorem releaseFiber (h : m.Accounted dead []) (id : Nat) :
    ∃ m', Exec.releaseFiber id m = .ok () m' ∧ m'.Accounted dead [] := by
  obtain ⟨n, hfuel, hn⟩ := burden_lt_disposalFuel m
  obtain ⟨m', hm', hacc⟩ := dispose n [.fiber id] h hn
  exact ⟨m', (bind_of_ok hfuel).trans hm', hacc⟩

end Machine.Accounted

/-! ## Switching -/

/-- A fiber that is gone on with. -/
def Fiber.entered (f : Fiber) : Fiber := { f with state := .running, active := true, context := none }

namespace Machine

/-- The running thread is left for one of a fiber. -/
def enter (m : Machine) (id : Nat) (x : Context) : Machine :=
  { m with fibers := m.fibers.modify id Fiber.entered, waiting := m.context :: m.waiting, context := x }

/-- The thread of a fiber is left for the one that waits for it. -/
def leave (m : Machine) (id : Nat) (f : Fiber → Fiber) (x : Context) (rest : List Context) : Machine :=
  { m with fibers := m.fibers.modify id f, context := x, waiting := rest }

variable {m : Machine} {id : Nat} {args : List Value} {x c : Context} {rest : List Context} {f : Fiber} {v : Value}

/-! ### What resuming comes to -/

theorem resumeFiber_absent (h : m.fibers[id]? = none) : resumeFiber id args m = .error .fault m := by
  simp [resumeFiber, Exec.demand, h]

theorem resumeFiber_dead (h : m.fibers[id]? = some f) (hd : f.state = .dead) :
    resumeFiber id args m = .ok (.fail .deadFiber) m := by
  simp [resumeFiber, Exec.demand, h, hd]

theorem resumeFiber_active (h : m.fibers[id]? = some f) (hd : f.state ≠ .dead) (ha : f.active = true) :
    resumeFiber id args m = .ok (.fail .currentFiber) m := by
  simp [resumeFiber, Exec.demand, h, hd, ha]

theorem resumeFiber_stored (h : m.fibers[id]? = some f) (hd : f.state ≠ .dead) (ha : f.active = false)
    (hc : f.context = some c) :
    resumeFiber id args m = (pack args >>= fun v => pure (.value v) : Exec Control) (m.enter id c) := by
  simp [resumeFiber, Exec.demand, h, hd, ha, hc, enterFiber, modifyFiber, Machine.enter]
  rfl

theorem resumeFiber_new (h : m.fibers[id]? = some f) (hd : f.state ≠ .dead) (ha : f.active = false)
    (hc : f.context = none) : resumeFiber id args m =
      startFiber f args ({ m with pool := m.pool.take.2 }.enter id { stack := m.pool.take.1, fiber := some id }) := by
  simp [resumeFiber, Exec.demand, h, hd, ha, hc, enterFiber, modifyFiber, Machine.enter]
  rfl

/-! ### What leaving comes to -/

theorem leaveFiber_apply (hw : m.waiting = x :: rest) :
    leaveFiber id m = .ok () (m.leave id (fun f => { f with active := false }) x rest) := by
  simp [leaveFiber, modifyFiber, hw, Machine.leave]

theorem suspend_root (h : m.context.fiber = none) : suspend v m = .ok (.fail .yieldFromRoot) m := by
  simp [suspend, h]

theorem suspend_apply (h : m.context.fiber = some id) (hw : m.waiting = x :: rest) : suspend v m = .ok (.value v)
    (m.leave id (fun f => { f with active := false, context := some m.context, lastYield := some v }) x rest) := by
  simp [suspend, h, leaveFiber, modifyFiber, hw, Machine.leave, modify_modify]

/-- No thread waits for the one that is left. -/
theorem suspend_alone (h : m.context.fiber = some id) (hw : m.waiting = []) : suspend v m = .error .switchOrder { m with
    fibers := m.fibers.modify id fun f => { f with active := false, context := some m.context, lastYield := some v } } := by
  simp [suspend, h, leaveFiber, modifyFiber, hw, modify_modify]

theorem finishFiber_root {r : Except Failure Value} (h : m.context.fiber = none) :
    finishFiber r m = .error .switchOrder m := by
  simp [finishFiber, h]

theorem finishFiber_apply {r : Except Failure Value} (h : m.context.fiber = some id) (hw : m.waiting = x :: rest) :
    finishFiber r m = .ok (.deliver (r.mapError Failure.escape))
      { m.leave id (fun f => { f with active := false, state := .dead }) x rest with
        pool := m.pool.put m.context.stack } := by
  cases r <;> simp [finishFiber, h, leaveFiber, modifyFiber, hw, putStack, Machine.leave, modify_modify, Except.mapError,
    Control.value, Control.failure]

theorem finishFiber_alone {r : Except Failure Value} (h : m.context.fiber = some id) (hw : m.waiting = []) :
    finishFiber r m = .error .switchOrder { m with fibers := m.fibers.modify id fun f => { f with active := false } } := by
  simp [finishFiber, h, leaveFiber, modifyFiber, hw]

theorem abandonRunning_away (h : m.context.fiber ≠ some id) : abandonRunning id m = .error .switchOrder m := by
  simp [abandonRunning, h]

theorem abandonRunning_alone (h : m.context.fiber = some id) (hw : m.waiting = []) :
    abandonRunning id m = .error .switchOrder { m with fibers := m.fibers.modify id fun f => { f with active := false } } := by
  simp [abandonRunning, h, Exec.fiber, leaveFiber, modifyFiber, hw]

theorem abandonRunning_yielded (h : m.context.fiber = some id) (hw : m.waiting = x :: rest)
    (hv : (m.fibers.getD id default).lastYield = some v) : abandonRunning id m = .ok (.value v)
      (m.leave id (fun f => { f with active := false, state := .dead, context := some { m.context with konts := [] } })
        x rest) := by
  rw [Array.getD_eq_getD_getElem?] at hv
  simp [abandonRunning, h, Exec.fiber, hv, leaveFiber, modifyFiber, hw, Machine.leave, modify_modify]

theorem abandonRunning_fresh (h : m.context.fiber = some id) (hw : m.waiting = x :: rest)
    (hv : (m.fibers.getD id default).lastYield = none) : abandonRunning id m = .ok (.value .zero)
      { m.leave id (fun f => { f with active := false, state := .dead }) x rest with
        pool := m.pool.put m.context.stack } := by
  rw [Array.getD_eq_getD_getElem?] at hv
  simp [abandonRunning, h, Exec.fiber, hv, leaveFiber, modifyFiber, hw, putStack, Machine.leave, modify_modify]

end Machine

/-! ## Switching keeps account -/

namespace Machine.Accounted

variable {dead : Nat → Prop} {l l' : List Nat} {m : Machine} {id : Nat} {x : Context} {rest : List Context} {g : Fiber → Fiber}
  {v : Value}

theorem enter (h : m.Accounted dead l) (hid : id < m.fibers.size) (hd : (m.fibers.getD id default).state ≠ .dead)
    (ha : (m.fibers.getD id default).active = false) (hx : x.fiber = some id)
    (hl : (x.stackId :: l').Perm ((m.fibers.getD id default).context.toList.map Context.stackId ++ l)) :
    (m.enter id x).Accounted dead l' where
  chained := by
    have out : some id ∉ m.chain.map Context.fiber := fun hi => by cases ha.symm.trans (h.chained.live id hi).2.1
    have chain : (m.enter id x).chain.map Context.fiber = some id :: m.chain.map Context.fiber := congrArg (· :: _) hx
    rw [chain]
    exact h.chained.enter hid out (fun _ => rfl) fun _ => rfl
  tallied := h.tallied.enter hid (fun _ => rfl) hl
  dead := h.dead_modify id fun hi => absurd (h.dead id hi).2 hd

/-- The thread of a fiber that was put aside goes on, on its own stack. -/
theorem enter_stored (h : m.Accounted dead []) (hid : id < m.fibers.size) (hd : (m.fibers.getD id default).state ≠ .dead)
    (ha : (m.fibers.getD id default).active = false) (hx : (m.fibers.getD id default).context = some x) :
    (m.enter id x).Accounted dead [] :=
  h.enter hid hd ha (h.chained.own id x hx) (by rw [hx]; exact .refl _)

/-- A fiber starts on a stack from the pool. -/
theorem enter_new (h : m.Accounted dead []) (hid : id < m.fibers.size) (hd : (m.fibers.getD id default).state ≠ .dead)
    (ha : (m.fibers.getD id default).active = false) (hx : (m.fibers.getD id default).context = none) :
    ({ m with pool := m.pool.take.2 }.enter id { stack := m.pool.take.1, fiber := some id }).Accounted dead [] := by
  have taken : { m with pool := m.pool.take.2 }.Accounted dead [m.pool.take.1.id] := { h with tallied := h.tallied.take }
  exact taken.enter hid hd ha rfl (by rw [hx]; exact .refl _)

theorem leave (h : m.Accounted dead l) (hid : m.context.fiber = some id) (hw : m.waiting = x :: rest)
    (hd : ∀ f, f.state = .dead → (g f).state = .dead)
    (hx : ∀ y, (g (m.fibers.getD id default)).context = some y → y.fiber = some id)
    (hl : ((g (m.fibers.getD id default)).context.toList.map Context.stackId ++ l').Perm (m.context.stackId :: l)) :
    (m.leave id g x rest).Accounted dead l' where
  chained := by
    have chain : m.chain.map Context.fiber = some id :: (m.leave id g x rest).chain.map Context.fiber := by
      rw [chain, hw, List.map_cons, hid]
      rfl
    have h := h.chained
    rw [chain] at h
    exact h.leave hx
  tallied := by
    have live := h.chained.live id (hid ▸ List.mem_cons_self)
    exact h.tallied.leave live.1 live.2.2 hw hl
  dead := h.dead_modify id fun hi => hd _ (h.dead id hi).2

theorem running (h : m.Accounted dead l) (hid : m.context.fiber = some id) :
    (m.fibers.getD id default).context = none ∧ ∃ x rest, m.waiting = x :: rest := by
  refine ⟨(h.chained.live id (hid ▸ List.mem_cons_self)).2.2, ?_⟩
  have hc := h.chained
  rw [chain, List.map_cons, hid] at hc
  exact List.exists_cons_of_ne_nil fun hw => hc.below (congrArg _ hw)

theorem suspend (h : m.Accounted dead []) (hid : m.context.fiber = some id) :
    ∃ m', Exec.suspend v m = .ok (.value v) m' ∧ m'.chain = m.waiting ∧ m'.Accounted dead [] := by
  obtain ⟨-, x, rest, hw⟩ := h.running hid
  refine ⟨_, suspend_apply hid hw, hw.symm, h.leave hid hw (fun _ h => h) (fun y hy => ?_) (.refl _)⟩
  cases hy
  exact hid

/-- A fiber that is over, with its stack given back. -/
theorem finish (h : m.Accounted dead []) (hid : m.context.fiber = some id) (hw : m.waiting = x :: rest) :
    { m.leave id (fun f => { f with active := false, state := .dead }) x rest with
      pool := m.pool.put m.context.stack }.Accounted dead [] := by
  obtain ⟨hn, -⟩ := h.running hid
  have left : (m.leave id (fun f => { f with active := false, state := .dead }) x rest).Accounted dead
      [m.context.stackId] :=
    h.leave hid hw (fun _ _ => rfl) (fun y hy => by cases hn.symm.trans hy) (by dsimp only; rw [hn]; exact .refl _)
  exact left.put

theorem finishFiber {r : Except Failure Value} (h : m.Accounted dead []) (hid : m.context.fiber = some id) :
    ∃ m', Exec.finishFiber r m = .ok (.deliver (r.mapError Failure.escape)) m' ∧ m'.chain = m.waiting ∧
      m'.Accounted dead [] := by
  obtain ⟨-, x, rest, hw⟩ := h.running hid
  exact ⟨_, finishFiber_apply hid hw, hw.symm, h.finish hid hw⟩

theorem abandonRunning (h : m.Accounted dead []) (hid : m.context.fiber = some id) :
    ∃ v m', Exec.abandonRunning id m = .ok (.value v) m' ∧ m'.chain = m.waiting ∧ m'.Accounted dead [] := by
  obtain ⟨-, x, rest, hw⟩ := h.running hid
  cases hv : (m.fibers.getD id default).lastYield with
  | none => exact ⟨_, _, abandonRunning_fresh hid hw hv, hw.symm, h.finish hid hw⟩
  | some v =>
    refine ⟨_, _, abandonRunning_yielded hid hw hv, hw.symm, h.leave hid hw (fun _ _ => rfl) (fun y hy => ?_) (.refl _)⟩
    cases hy
    exact hid

/-! ## Computations keep account -/

open Keeping

variable {K : Known} {α : Type}

theorem still_onHeap (x : HeapM Object α) (m : Machine) :
    m.Still (after (onHeap x) m) ∧ (after (onHeap x) m).options = m.options := by
  unfold after onHeap
  dsimp only
  cases x m.heap <;> exact ⟨.of_eq rfl rfl rfl rfl, rfl⟩

theorem kept_onHeap (dead : Nat → Prop) (x : HeapM Object α) : Kept (Accounted dead []) (onHeap x) := fun m hm =>
  hm.calm (still_onHeap x m).1.toCalm (still_onHeap x m).2

theorem kept_newFiber (dead : Nat → Prop) (body : Value) (iteration : Option Iteration) :
    Kept (Accounted dead []) (newFiber body iteration) := by
  refine kept_get.bind fun _ => (kept_onHeap dead _).bind fun self => Kept.bind (fun m hm => ?_) fun _ => kept_pure _
  have fresh : ({ self, body, iteration } : Fiber).context = none := rfl
  refine ⟨hm.chained.push fresh, hm.tallied.push fresh, fun i hi => ?_⟩
  obtain ⟨hlt, hd⟩ := hm.dead i hi
  exact ⟨(Array.size_push _).symm ▸ hlt.trans (Nat.lt_succ_self _),
    (congrArg Fiber.state (getD_push_of_ne _ hlt.ne)).trans hd⟩

theorem stable (dead : Nat → Prop) : Stable (Accounted dead []) where
  alloc _ := kept_onHeap dead _
  update _ _ _ := kept_onHeap dead _
  setEnabled _ := kept_onHeap dead _
  classes hm := hm.calm ⟨rfl, rfl, rfl, rfl, rfl⟩ rfl
  lookups hm := hm.calm ⟨rfl, rfl, rfl, rfl, rfl⟩ rfl
  functions hm _ := hm.calm ⟨rfl, rfl, rfl, rfl, rfl⟩ rfl
  addFunction hm _ := hm.calm ⟨rfl, rfl, rfl, rfl, rfl⟩ rfl
  newFiber := kept_newFiber dead
  releaseFiber _ := of_kept (fun m hm => by
    obtain ⟨m', he, hm'⟩ := hm.releaseFiber _
    exact after_of_ok he ▸ hm') fun _ _ _ _ _ => ⟨rfl, trivial⟩
  steady hm h _ hc := hm.calm hc.toCalm h.options

/-- What is kept from where a computation goes on. -/
theorem keeping_of_eq {R : Known → α → Prop} {x y : Exec α} {m m' : Machine} (h : x m = y m')
    (hm' : m'.Accounted dead []) (hy : Keeping (Accounted dead []) K y R) (hK : K.All) :
    ∃ K', K ≤ K' ∧ K'.All ∧ (after x m).Accounted dead [] ∧ ∀ a m', x m = .ok a m' → R K' a := by
  have he : after x m = after y m' := by rw [after, h, after]
  rw [he, h]
  exact hy hK m' hm'

theorem keeping_suspend (dead : Nat → Prop) (v : Value) :
    Keeping (Accounted dead []) K (Exec.suspend v) (Same K K.control) := by
  refine of_kept (fun m hm => ?_) fun hK _ c _ _ => ⟨rfl, hK.control c⟩
  cases hf : m.context.fiber with
  | none => rwa [after_of_ok (suspend_root hf)]
  | some id =>
    obtain ⟨m', he, -, hm'⟩ := hm.suspend hf
    exact after_of_ok he ▸ hm'

theorem keeping_finishFiber (dead : Nat → Prop) (r : Except Failure Value) :
    Keeping (Accounted dead []) K (Exec.finishFiber r) (Same K K.control) := by
  refine of_kept (fun m hm => ?_) fun hK _ c _ _ => ⟨rfl, hK.control c⟩
  cases hf : m.context.fiber with
  | none => rwa [after_of_error (finishFiber_root hf)]
  | some id =>
    obtain ⟨m', he, -, hm'⟩ := hm.finishFiber hf
    exact after_of_ok he ▸ hm'

theorem keeping_abandonRunning (dead : Nat → Prop) (id : Nat) :
    Keeping (Accounted dead []) K (Exec.abandonRunning id) (Same K K.control) := by
  refine of_kept (fun m hm => ?_) fun hK _ c _ _ => ⟨rfl, hK.control c⟩
  by_cases hf : m.context.fiber = some id
  · obtain ⟨v, m', he, -, hm'⟩ := hm.abandonRunning hf
    exact after_of_ok he ▸ hm'
  · rwa [after_of_error (abandonRunning_away hf)]

theorem keeping_pushKont (dead : Nat → Prop) (k : Kont) :
    Keeping (Accounted dead []) K (pushKont k) (Same K fun _ => True) :=
  changed fun _ _ hm => ⟨hm.calm ⟨rfl, rfl, rfl, rfl, rfl⟩ rfl, trivial⟩

theorem keeping_resumeFiber (dead : Nat → Prop) (id : Nat) {vs : List Value}
    (packed : Keeping (Accounted dead []) K (pack vs) Known.value)
    (begun : ∀ f, K.fiber f → Keeping (Accounted dead []) K (beginFiber f vs) Known.control) :
    Keeping (Accounted dead []) K (Exec.resumeFiber id vs) Known.control := by
  intro hK m hm
  have started (f : Fiber) : Keeping (Accounted dead []) K (startFiber f vs) Known.control := by
    rw [startFiber_eq]
    exact Keeping.bind (keeping_pushKont dead _) fun K' _ _ h => h.1 ▸ begun f (hK.fiber f)
  have stays {c : Control} (h : Exec.resumeFiber id vs m = .ok c m) :
      ∃ K', K ≤ K' ∧ K'.All ∧ (after (Exec.resumeFiber id vs) m).Accounted dead [] ∧
        ∀ c m', Exec.resumeFiber id vs m = .ok c m' → K'.control c :=
    ⟨K, le_rfl, hK, by rwa [after_of_ok h], fun c _ _ => hK.control c⟩
  cases hf : m.fibers[id]? with
  | none =>
    exact ⟨K, le_rfl, hK, by rwa [after_of_error (resumeFiber_absent hf)], fun c _ _ => hK.control c⟩
  | some f =>
    obtain ⟨hid, -⟩ := Array.getElem?_eq_some_iff.mp hf
    have hg : m.fibers.getD id default = f := by rw [Array.getD_eq_getD_getElem?, hf, Option.getD_some]
    by_cases hd : f.state = .dead
    · exact stays (resumeFiber_dead hf hd)
    by_cases ha : f.active = true
    · exact stays (resumeFiber_active hf hd ha)
    have ha := Bool.eq_false_of_not_eq_true ha
    cases hc : f.context with
    | none =>
      refine keeping_of_eq (resumeFiber_new hf hd ha hc) ?_ (started f) hK
      subst hg
      exact hm.enter_new hid hd ha hc
    | some c =>
      refine keeping_of_eq (resumeFiber_stored hf hd ha hc) ?_ (Keeping.bind packed fun K' v _ hv => Keeping.pure hv) hK
      subst hg
      exact hm.enter_stored hid hd ha hc

theorem logic (dead : Nat → Prop) : CallLogic (Keeping (Accounted dead [])) :=
  { (stable dead).logic with
    change := fun _ hf => changed fun m hk hm => by
      obtain ⟨h, hc, -⟩ := hf m hk
      exact ⟨hm.calm hc.toCalm h.options, trivial⟩
    pushKont := fun _ _ => keeping_pushKont dead _
    resume := fun _ => keeping_resumeFiber dead _
    suspend := fun _ => keeping_suspend dead _ }

theorem collect (dead : Nat → Prop) : Keeping (Accounted dead []) K Exec.collect (Same K fun _ => True) := fun hK => by
  have heap {α : Type} (x : HeapM Object α) : Keeping (Accounted dead []) K (onHeap x) (Same K fun _ => True) :=
    of_kept (kept_onHeap dead x) fun _ _ _ _ _ => ⟨rfl, trivial⟩
  exact (logic dead).collectBy hK.fib (heap _) (fun _ _ => heap _) (heap _) (heap _)
    (fun _ => changed fun m _ hm => ⟨hm.calm ⟨rfl, rfl, rfl, rfl, rfl⟩ rfl, trivial⟩) hK

theorem collectLogic (dead : Nat → Prop) : CollectLogic (Keeping (Accounted dead [])) (Keeping (Accounted dead [])) :=
  { logic dead with
    plain := fun h => h
    andThen := bind
    giving := fun hx h => bind hx fun K' a hle ha => pure (h K' a hle ha)
    lookThen := (logic dead).look
    collect := collect dead }

theorem run {R : Known → α → Prop} {x : Exec α} {a : α} {k : Nat} {m m' : Machine} {dead : Nat → Prop}
    (hm : m.Accounted dead []) (hx : Keeping (Accounted dead []) (.anything k) x R) (h : x m = .ok a m') :
    m'.Accounted dead [] := by
  obtain ⟨-, -, -, hm', -⟩ := hx (Known.all_anything k) m hm
  rwa [after_of_ok h] at hm'

theorem step {c : Control} {o : Control ⊕ Outcome} {m m' : Machine} {dead : Nat → Prop} (hm : m.Accounted dead [])
    (h : Exec.step c m = .ok o m') : m'.Accounted dead [] := by
  exact hm.run ((collectLogic dead).stepBy (fun _ => keeping_finishFiber dead _) (fun _ => keeping_abandonRunning dead _) whole
    (fun _ _ => changed fun _ _ hm => ⟨hm.calm ⟨rfl, rfl, rfl, rfl, rfl⟩ rfl, trivial⟩)
    ((Known.all_anything c.changes).control c) (Known.ready_anything c)) h

theorem blank (options : Options) : (Machine.blank options).Accounted (fun _ => False) [] where
  chained :=
    { root := ⟨[], rfl⟩
      distinct := List.nodup_singleton _
      live := fun id hi => by cases List.mem_singleton.mp hi
      own := fun id x hx => by cases hx }
  tallied :=
    { apart := List.nodup_singleton _
      made := fun i hi => by
        cases List.mem_singleton.mp hi
        exact Nat.one_pos
      empty := fun s hs => by cases hs
      room := Nat.zero_le _
      capacity := rfl
      taken := rfl }
  dead _ h := h.elim

end Machine.Accounted

end RubyMachine
