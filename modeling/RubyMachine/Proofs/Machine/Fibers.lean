import RubyMachine.Proofs.Machine.Calls

/-! Fibers and enumerations in every logic. How threads are switched is shown once for the logics in which
threads may be changed at will. -/

namespace RubyMachine

/-- What is left to be given up is known. -/
def Known.disposal (K : Known) : Disposal → Prop
  | .fiber id => K.fib id
  | .stack s => K.stack s.reset

namespace Logic

open Known

variable {K : Known} {v : Value} {vs : List Value} {id : Nat}

theorem getD_modify (a : Array Fiber) (i j : Nat) (f : Fiber → Fiber) :
    (a.modify i f).getD j default = a.getD j default ∨
      i = j ∧ (a.modify i f).getD j default = f (a.getD j default) := by
  rw [Array.getD_eq_getD_getElem?, Array.getD_eq_getD_getElem?, Array.getElem?_modify]
  split
  · subst i
    cases h : a[j]? with
    | none => exact .inl rfl
    | some x => exact .inr ⟨rfl, rfl⟩
  · exact .inl rfl

theorem fib_drivenFibers {ks : List Kont} (h : ∀ k ∈ ks, K.kont k) : ∀ i ∈ drivenFibers ks, K.fib i := by
  intro i hi
  obtain ⟨k, hk, hi⟩ := List.mem_filterMap.mp hi
  have := h k hk
  cases k with
  | pull d =>
    cases hi
    exact this.fib
  | feed d =>
    cases hi
    exact this.fib
  | _ => cases hi

/-! ## A changed fiber -/

theorem minor_fiber (m : Machine) (id : Nat) {f : Fiber → Fiber} (hs : ∀ x, (f x).self = x.self) :
    m.Minor { m with fibers := m.fibers.modify id f } := by
  refine ⟨rfl, rfl, rfl, rfl, rfl, rfl, rfl, Array.size_modify, fun i => ?_, fun h => h⟩
  rcases getD_modify m.fibers id i f with h | ⟨_, h⟩
  · exact congrArg Fiber.self h
  · exact (congrArg Fiber.self h).trans (hs _)

theorem machine_fiber {m : Machine} (hm : K.machine m) {f : Fiber → Fiber} (hf : ∀ x, K.fiber x → K.fiber (f x))
    (id : Nat) : K.machine { m with fibers := m.fibers.modify id f } := by
  refine { hm with fibers := fun i hi => ?_ }
  rcases getD_modify m.fibers id i f with h | ⟨_, h⟩
  · exact h ▸ hm.fibers i hi
  · exact h ▸ hf _ (hm.fibers i hi)

theorem fiber_ended {f : Fiber} (hf : K.fiber f) : K.fiber { f with state := .dead, context := none } :=
  { hf with remains := trivial, context := fun h => absurd rfl h }

theorem failure_escape {f : Failure} (hf : K.failure f) : K.failure f.escape := by
  unfold Failure.escape
  split
  · exact failure_of _
  · exact failure_of _
  · exact hf

theorem stack_take {p : StackPool} (hp : ∀ s ∈ p.free, K.stack s) :
    K.stack p.take.1 ∧ ∀ s ∈ p.take.2.free, K.stack s := by
  unfold StackPool.take
  split
  · rename_i s rest h
    rw [h] at hp
    exact ⟨hp s (by simp), fun t ht => hp t (by simp [ht])⟩
  · exact ⟨stack_empty _ _, hp⟩

theorem machine_put {m : Machine} (hm : K.machine m) {s : Stack} (hs : K.stack s.reset) :
    K.machine { m with pool := m.pool.put s } := by
  refine { hm with pool := fun t ht => ?_ }
  unfold StackPool.put at ht
  dsimp only at ht
  split at ht
  · rcases List.mem_cons.mp ht with rfl | ht
    · exact hs
    · exact hm.pool t ht
  · exact hm.pool t ht

end Logic

namespace Basics

open Known Logic

variable {K : Known} {id : Nat} {Φ : ∀ {α : Type}, Known → Exec α → (Known → α → Prop) → Prop} (L : Basics Φ)

include L

/-! ## Giving up fibers -/

section Releasing

variable (whole : Φ K get (Same K K.machine))
  (ended : ∀ id, Keeps Φ K (Exec.modifyFiber id fun f => { f with state := .dead, context := none }))
  (put : ∀ s, K.stack s.reset → Keeps Φ K (Exec.putStack s))

include whole

theorem fiberBy (hi : K.fib id) : Φ K (Exec.fiber id) (Same K K.fiber) :=
  L.seq whole fun _ hm => L.ret (hm.fibers id hi)

include ended put

theorem disposeBy (fuel : Nat) {ds : List Disposal} (hd : ∀ d ∈ ds, K.disposal d) : Keeps Φ K (Exec.dispose fuel ds) := by
  induction fuel generalizing ds with
  | zero => exact L.ret trivial
  | succ fuel ih =>
    cases ds with
    | nil => exact L.ret trivial
    | cons d rest =>
      have hrest : ∀ d ∈ rest, K.disposal d := fun d h => hd d (by simp [h])
      cases d with
      | stack s => exact L.seq (put s (hd (.stack s) (by simp))) fun _ _ => ih hrest
      | fiber id =>
        refine L.seq (L.fiberBy whole (hd (.fiber id) (by simp))) fun f hf => ?_
        refine L.seq (ended id) fun _ _ => ?_
        have hc := hf.remains
        split
        · rename_i c h
          rw [h] at hc
          refine ih fun d hd => ?_
          rcases List.mem_append.mp hd with hd | hd
          · obtain ⟨i, hi, rfl⟩ := List.mem_map.mp hd
            exact fib_drivenFibers hc.2 i hi
          · rcases List.mem_cons.mp hd with rfl | hd
            · exact hc.1
            · exact hrest d hd
        · exact ih hrest

/-- A fiber is given up, given how a machine is looked at, how fibers are marked as dead and how their stacks are given
back. -/
theorem releaseFiberBy (hi : K.fib id) : Keeps Φ K (Exec.releaseFiber id) := by
  have fuel : Keeps Φ K Exec.disposalFuel := L.seq whole fun _ _ => L.ret trivial
  refine L.seq fuel fun n _ => L.disposeBy whole ended put n fun d hd => ?_
  rw [List.mem_singleton.mp hd]
  exact hi

end Releasing

end Basics

/-- A logic in which a machine may be looked at, and all but the heap, the classes and the functions may be changed. -/
structure Changes (Φ : ∀ {α : Type}, Known → Exec α → (Known → α → Prop) → Prop) : Prop extends Basics Φ where
  whole {K : Known} : Φ K get (Same K K.machine)
  disorder {α : Type} {K : Known} {R : Known → α → Prop} : Φ K (MonadExcept.throw Defect.switchOrder) R
  change {α : Type} {K : Known} {P : α → Prop} {f : Machine → α × Machine} :
    (∀ m, K.machine m → m.Minor (f m).2 ∧ K.machine (f m).2 ∧ P (f m).1) → Φ K (modifyGet f) (Same K P)

namespace Changes

open Known Logic

variable {K : Known} {v : Value} {vs : List Value} {id : Nat}
  {Φ : ∀ {α : Type}, Known → Exec α → (Known → α → Prop) → Prop} (L : Changes Φ)

include L

theorem modifyFiber {f : Fiber → Fiber} (hs : ∀ x, (f x).self = x.self) (hf : ∀ x, K.fiber x → K.fiber (f x))
    (id : Nat) : Keeps Φ K (Exec.modifyFiber id f) :=
  L.change fun m hm => ⟨minor_fiber m id hs, machine_fiber hm hf id, trivial⟩

theorem putStack {s : Stack} (hs : K.stack s.reset) : Keeps Φ K (Exec.putStack s) :=
  L.change fun _ hm => ⟨⟨rfl, rfl, rfl, rfl, rfl, rfl, rfl, rfl, fun _ => rfl, fun h => h⟩, machine_put hm hs, trivial⟩

theorem releaseFiber (hi : K.fib id) : Keeps Φ K (Exec.releaseFiber id) :=
  L.releaseFiberBy L.whole (fun id => L.modifyFiber (f := fun f => { f with state := .dead, context := none }) (fun _ => rfl)
    (fun _ => fiber_ended) id) (fun _ => L.putStack) hi

theorem takeStack : Φ K (modifyGet fun m =>
      let (s, p) := m.pool.take
      (s, { m with pool := p })) (Same K K.stack) := by
  refine L.change fun m hm => ⟨⟨rfl, rfl, rfl, rfl, rfl, rfl, rfl, rfl, fun _ => rfl, fun h => h⟩, ?_⟩
  have hp := stack_take hm.pool
  exact ⟨{ hm with pool := hp.2 }, hp.1⟩

theorem endFiber (id : Nat) : Keeps Φ K (Exec.modifyFiber id fun f => { f with state := .dead }) :=
  L.modifyFiber (f := fun f => { f with state := .dead }) (fun _ => rfl)
    (fun _ hf => { hf with context := fun h => absurd rfl h }) id

/-! ## Switching -/

theorem enterFiber {c : Context} (hc : K.context c) (id : Nat) : Keeps Φ K (Exec.enterFiber id c) := by
  refine L.seq (L.modifyFiber (f := fun f => { f with state := .running, active := true, context := none })
    (fun _ => rfl) (fun _ hf => { hf with remains := trivial, context := fun _ => trivial }) id) fun _ _ => ?_
  refine L.change fun m hm => ⟨⟨rfl, rfl, rfl, rfl, rfl, rfl, rfl, rfl, fun _ => rfl, fun h => h⟩, ?_, trivial⟩
  refine { hm with context := hc, waiting := fun c' h => ?_ }
  rcases List.mem_cons.mp h with rfl | h
  · exact hm.context
  · exact hm.waiting c' h

theorem leaveFiber (id : Nat) : Keeps Φ K (Exec.leaveFiber id) := by
  refine L.seq (L.modifyFiber (f := fun f => { f with active := false }) (fun _ => rfl) (fun _ hf => { hf with }) id)
    fun _ _ => ?_
  refine L.seq L.whole fun m hm => ?_
  have hw := hm.waiting
  split
  · rename_i c rest h
    rw [h] at hw
    refine L.change fun m hm => ⟨⟨rfl, rfl, rfl, rfl, rfl, rfl, rfl, rfl, fun _ => rfl, fun h => h⟩, ?_, trivial⟩
    exact { hm with context := hw c (by simp), waiting := fun c' h => hw c' (by simp [h]) }
  · exact L.disorder

/-- Changes what is left to be done on the running thread. -/
theorem setKonts (f : List Kont → List Kont) (hf : ∀ ks, (∀ k ∈ ks, K.kont k) → ∀ k ∈ f ks, K.kont k) :
    Keeps Φ K (modify fun m => { m with context.konts := f m.context.konts }) :=
  L.change fun _ hm => ⟨⟨rfl, rfl, rfl, rfl, rfl, rfl, rfl, rfl, fun _ => rfl, fun h => h⟩,
    { hm with context := { hm.context with konts := hf _ hm.context.konts } }, trivial⟩

theorem pushKont {k : Kont} (hk : K.kont k) : Keeps Φ K (Exec.pushKont k) :=
  L.setKonts (fun ks => k :: ks) fun _ h k' hm => (List.mem_cons.mp hm).elim (· ▸ hk) (h k')

omit L in
theorem kont_lastKont (f : Fiber) : K.kont f.lastKont := by
  unfold Fiber.lastKont
  split <;> trivial

/-- A fiber is resumed, given what it calls when it is started, and how what it is resumed with is passed on. -/
theorem resumeFiber (hi : K.fib id) (packed : Φ K (Exec.pack vs) Known.value)
    (begun : ∀ f, K.fiber f → Φ K (Exec.beginFiber f vs) Known.control) : Φ K (Exec.resumeFiber id vs) Known.control := by
  refine L.seq L.whole fun m hm => ?_
  have here : Maybe K.fiber m.fibers[id]? := by
    have hf := hm.fibers id hi
    rw [Array.getD_eq_getD_getElem?] at hf
    cases h : m.fibers[id]? with
    | none => trivial
    | some f => rwa [h] at hf
  refine L.seq (L.demand here) fun f hf => ?_
  dsimp only
  split
  · exact L.pure (failure_of _)
  rename_i hd
  split
  · exact L.pure (failure_of _)
  have hc := hf.context hd
  split
  · rename_i c h
    rw [h] at hc
    refine L.seq (L.enterFiber hc id) fun _ _ => ?_
    exact L.bind packed fun _ _ _ hv => L.pure hv
  · refine L.seq L.takeStack fun s hs => ?_
    refine L.seq (L.enterFiber ⟨hs, values_nil, fun k h => absurd h (by simp)⟩ id) fun _ _ => ?_
    rw [Exec.startFiber_eq]
    exact L.seq (L.pushKont (kont_lastKont f)) fun _ _ => begun f hf

omit L in
theorem remains_of_context {c : Context} (hc : K.context c) : K.stack c.stack.reset ∧ ∀ k ∈ c.konts, K.kont k :=
  ⟨stack_reset hc.stack, hc.konts⟩

theorem suspend (hv : K.value v) : Φ K (Exec.suspend v) (Same K K.control) := by
  refine L.seq L.whole fun m hm => ?_
  have hc := hm.context
  dsimp only
  split
  · exact L.ret (failure_of _)
  · rename_i id _
    refine L.seq (L.modifyFiber (f := fun f => { f with context := some m.context, lastYield := some v }) (fun _ => rfl)
      (fun _ hf => { hf with lastYield := hv, remains := remains_of_context hc, context := fun _ => hc }) id)
      fun _ _ => ?_
    exact L.seq (L.leaveFiber id) fun _ _ => L.ret hv

theorem finishFiber {r : Except Failure Value} (hr : K.result r) : Φ K (Exec.finishFiber r) (Same K K.control) := by
  refine L.seq L.whole fun m hm => ?_
  have hc := hm.context
  dsimp only
  split
  · exact L.disorder
  · rename_i id _
    refine L.seq (L.leaveFiber id) fun _ _ => ?_
    refine L.seq (L.endFiber id) fun _ _ => ?_
    refine L.seq (L.putStack (stack_reset hc.stack)) fun _ _ => ?_
    cases r with
    | ok v => exact L.ret hr
    | error f => exact L.ret (failure_escape hr)

theorem abandonRunning (hi : K.fib id) : Φ K (Exec.abandonRunning id) (Same K K.control) := by
  refine L.seq L.whole fun m hm => ?_
  have hc := hm.context
  refine L.checkBy L.disorder fun _ => ?_
  refine L.seq (L.fiberBy L.whole hi) fun f hf => ?_
  refine L.seq (L.leaveFiber id) fun _ _ => ?_
  have hv := hf.lastYield
  split
  · rename_i v h
    rw [h] at hv
    refine L.seq (L.modifyFiber (f := fun f => { f with state := .dead, context := some { m.context with konts := [] } })
      (fun _ => rfl) (fun _ hf => { hf with
        remains := ⟨stack_reset hc.stack, fun k h => absurd h (by simp)⟩, context := fun h => absurd rfl h }) id)
      fun _ _ => L.ret hv
  · refine L.seq (L.endFiber id) fun _ _ => ?_
    exact L.seq (L.putStack (stack_reset hc.stack)) fun _ _ => L.ret zero

/-- What calls are made of, given what other computations are made of. -/
theorem callLogic (logic : Logic Φ) : CallLogic Φ :=
  { logic with
    change := fun _ hf => L.change fun m hm => ⟨(hf m hm).1, (hf m hm).2.2, trivial⟩
    pushKont := fun hk _ => L.pushKont hk
    resume := L.resumeFiber
    suspend := L.suspend }

end Changes

/-! ## What is reached -/

theorem Context.refs_mapKonts (κ : Option Nat → List Kont → List Kont) (x : Context) : (x.mapKonts κ).refs = x.refs := rfl

theorem Fiber.refs_mapKonts (κ : Option Nat → List Kont → List Kont) (f : Fiber) : (f.mapKonts κ).refs = f.refs := by
  have context : (f.mapKonts κ).context.map Context.refs = f.context.map Context.refs := Option.map_map ..
  unfold refs
  rw [context]
  rfl

theorem Object.refs_mapKonts (t : ClassTable) (κ : Option Nat → List Kont → List Kont) (m : Machine) :
    refs t (m.mapKonts κ).fibers = refs t m.fibers := by
  funext o
  cases o with
  | fiber i => exact (congrArg Fiber.refs (Fiber.getD_mapContext m.fibers _ i)).trans (Fiber.refs_mapKonts κ _)
  | _ => rfl

theorem Machine.roots_mapKonts (κ : Option Nat → List Kont → List Kont) (m : Machine) : (m.mapKonts κ).roots = m.roots := by
  have threads : (m.mapKonts κ).context :: (m.mapKonts κ).waiting = (m.context :: m.waiting).map (Context.mapKonts κ) := rfl
  unfold roots
  rw [threads, ← List.map_reverse, List.flatMap_map]
  rfl

namespace Logic

open Known

variable {K : Known} {v : Value} {vs : List Value}
  {Φ : ∀ {α : Type}, Known → Exec α → (Known → α → Prop) → Prop} (L : Logic Φ)

include L

/-! ## Collections -/

/-- A collection, given what is done to the heap and how it is noted down. What is left to be done on threads does not
matter to it. -/
theorem collectBy (hf : ∀ i, K.fib i) (clear : Keeps Φ K (Exec.onHeap (modify Heap.clearMarks)))
    (mark : ∀ refs vs, Keeps Φ K (Exec.onHeap (Heap.markValues refs vs))) (sweep : Keeps Φ K (Exec.onHeap Heap.sweep))
    (calm : Keeps Φ K (Exec.onHeap (modify fun h => { h with pending := false })))
    (note : ∀ c : Collection, Keeps Φ K (modify fun m => { m with collections := c :: m.collections })) :
    Keeps Φ K Exec.collect := by
  refine L.seq clear fun _ _ => L.look (fun _ _ => rfl) fun _ _ => ?_
  refine L.look (fun κ m => by simp only [Object.refs_mapKonts]) fun _ _ => ?_
  refine L.look (fun κ m => by simp only [Machine.roots_mapKonts]) fun _ _ => ?_
  refine L.seq (mark _ _) fun _ _ => L.look (fun _ _ => rfl) fun _ _ => L.check rfl fun _ => L.look (fun _ _ => rfl) fun _ _ => ?_
  refine L.seq sweep fun freed _ => L.seq (L.forM fun o _ => ?_) fun _ _ => ?_
  · split
    · exact L.releaseFiber (hf _)
    · exact L.ret trivial
  refine L.seq calm fun _ _ => L.look (fun _ _ => rfl) fun _ _ => ?_
  exact L.seq (note _) fun _ _ => L.ret trivial

/-! ## New enumerators -/

theorem newEnumerator (method : Ident) (hv : K.value v) (hvs : K.values vs) :
    Φ K (Exec.newEnumerator v method vs) Known.value :=
  L.alloc rfl fun _ => ⟨⟨hv, hvs⟩, nil⟩

theorem setEnumeratorFiber {f : Value} (hv : K.value v) (hf : K.value f) :
    Keeps Φ K (Exec.setEnumeratorFiber v f) := by
  refine L.update hv fun o ho => ?_
  cases o with
  | enumerator e => exact ⟨.enumerator e f, ho.1, hf⟩
  | _ => exact ⟨.same _, ho⟩

end Logic

namespace CallLogic

open Known Logic

variable {K : Known} {v : Value} {vs : List Value} {id : Nat}
  {Φ : ∀ {α : Type}, Known → Exec α → (Known → α → Prop) → Prop} (L : CallLogic Φ)

include L

theorem beginFiber {f : Fiber} (hf : K.fiber f) (hvs : K.values vs) : Φ K (Exec.beginFiber f vs) Known.control := by
  unfold Exec.beginFiber
  have hi := hf.iteration
  split
  · exact L.ofSame (L.callBlock (blockArg_proc hf.body) hvs) fun _ h => h
  · rename_i i h
    rw [h] at hi
    refine L.bind (L.allocProc nil nil) fun K' p hle hp => ?_
    exact L.ofSame (L.send _ (hle.value hi.1) (hle.values hi.2) nil (blockArg_proc hp)) fun _ h => h

theorem resumeFiber (hi : K.fib id) (hvs : K.values vs) : Φ K (Exec.resumeFiber id vs) Known.control :=
  L.resume hi (L.pack hvs) fun _ hf => L.beginFiber hf hvs

/-! ## Enumerations -/

theorem enumeratorNext {e : Enumerator} (hv : K.value v) (hi : K.iteration e.iteration) (hf : K.value e.fiber) :
    Φ K (Exec.enumeratorNext v e) Known.control := by
  have next (K' : Known) (f : Value) (hf : K'.value f) : Φ K' (do
      let id ← Exec.fiberOf f
      if (← Exec.fiber id).state = .dead then return .fail .exhausted
      Exec.resumeFiber id []) Known.control := by
    refine L.seq (L.fiberOf hf) fun id hid => ?_
    refine L.fiber hid (fun _ _ => rfl) fun _ _ => ?_
    split
    · exact L.pure (failure_of _)
    · exact L.resumeFiber hid values_nil
  unfold Exec.enumeratorNext
  dsimp only
  split
  · refine L.bind (L.newFiber nil (maybe_iteration hi)) fun K' f h hf' => ?_
    exact L.seq (L.setEnumeratorFiber (h.value hv) hf') fun _ _ => next K' f hf'
  · exact next K e.fiber hf

theorem pull {d : Drive} (hd : K.drive d) : Φ K (Exec.pull d) Known.control :=
  L.seq (L.pushKont hd rfl) fun _ _ => L.resumeFiber hd.fib values_nil

theorem drive {e : Enumerator} {b : Block} {mode : DriveMode} (hi : K.iteration e.iteration) (hb : K.block b)
    (hm : K.mode mode) : Φ K (Exec.drive e b mode) Known.control := by
  refine L.bind (L.newFiber nil (maybe_iteration hi)) fun K' f h hf => ?_
  refine L.seq (L.protect hf) fun _ _ => ?_
  exact L.seq (L.fiberOf hf) fun id hid => L.pull ⟨hid, h.block hb, h.mode hm⟩

theorem endDrive {d : Drive} (hd : K.drive d) : Keeps Φ K (Exec.endDrive d) := by
  refine L.seq (L.releaseFiber hd.fib) fun _ _ => ?_
  refine L.seq L.release fun _ _ => ?_
  split
  · exact L.release
  · exact L.ret trivial

theorem feed {d : Drive} (hd : K.drive d) (hv : K.value v) : Φ K (Exec.feed d v) (Same K K.control) := by
  unfold Exec.feed
  split
  · rename_i i _
    have hn := result_fixnum (K := K) i
    split
    · rename_i f h
      rw [h] at hn
      exact L.seq (L.endDrive hd) fun _ _ => L.ret hn
    · rename_i n h
      rw [h] at hn
      refine L.seq (L.pushKont (k := .feed { d with mode := .withIndex (i + 1) }) { hd with mode := trivial } rfl) fun _ _ => ?_
      exact L.callBlock hd.block (values_cons hv (values_cons hn values_nil))
  · refine L.seq (L.pushKont hd rfl) fun _ _ => ?_
    exact L.callBlock hd.block (values_cons hv values_nil)

end CallLogic

end RubyMachine
