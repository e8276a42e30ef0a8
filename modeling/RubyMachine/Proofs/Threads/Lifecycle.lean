import RubyMachine.Proofs.Machine.Placid
import RubyMachine.Proofs.Threads.Accounts
import RubyMachine.Proofs.Threads.Returns

/-! The life of fibers: a dead one stays dead, one that is in the chain is not resumed again, and whatever machines
and their hosts do with them, every thread is left for the one that waits for it. -/

namespace RubyMachine

open Exec

/-! ## How the threads of fibers end -/

/-- The last thing that is left to be done on the thread of a fiber is to leave it, and this is left to be done nowhere
else. -/
def Context.Settled (x : Context) : Prop :=
  ∃ n, x.konts.map Kont.isLast = List.replicate n false ++ x.fiber.toList.map fun _ => true

namespace Context.Settled

variable {x y : Context} {k : Kont} {rest : List Kont}

theorem of_eq (h : x.Settled) (hf : y.fiber = x.fiber) (hk : y.konts = x.konts) : y.Settled := by
  rwa [Settled, hf, hk]

theorem idle (hf : x.fiber = none) (hk : x.konts = []) : x.Settled := ⟨0, by rw [hf, hk]; rfl⟩

theorem cons (h : x.Settled) (hk : k.isLast = false) : { x with konts := k :: x.konts }.Settled := by
  obtain ⟨n, hn⟩ := h
  exact ⟨n + 1, congrArg₂ List.cons hk hn⟩

/-- What is left to be done is either not the end of a fiber, or all that is left on the thread of one. -/
theorem pop (h : x.Settled) (hk : x.konts = k :: rest) :
    k.isLast = false ∧ { x with konts := rest }.Settled ∨ k.isLast = true ∧ ∃ id, x.fiber = some id := by
  obtain ⟨n, hn⟩ := h
  rw [hk] at hn
  cases n with
  | zero =>
    cases hf : x.fiber with
    | none =>
      rw [hf] at hn
      cases hn
    | some id =>
      rw [hf] at hn
      exact .inr ⟨(List.cons.inj hn).1, id, rfl⟩
  | succ n => exact .inl ⟨(List.cons.inj hn).1, n, (List.cons.inj hn).2⟩

/-- On the thread of a fiber there is always something left to be done. -/
theorem root (h : x.Settled) (hk : x.konts = []) : x.fiber = none := by
  obtain ⟨n, hn⟩ := h
  rw [hk] at hn
  cases hf : x.fiber with
  | none => rfl
  | some id =>
    rw [hf] at hn
    exact absurd hn.symm (List.append_ne_nil_of_right_ne_nil _ (List.cons_ne_nil _ _))

/-- Where the same is left to be done as on the root, that is the root. -/
theorem root_of_konts (h : x.Settled) (hy : y.Settled) (hf : y.fiber = none) (hk : x.konts = y.konts) : x.fiber = none := by
  obtain ⟨n, hn⟩ := h
  obtain ⟨n', hn'⟩ := hy
  cases hx : x.fiber with
  | none => rfl
  | some id =>
    rw [hx, hk, hn', hf] at hn
    have last : true ∈ List.replicate n' false ++ [] := hn.symm ▸ List.mem_append_right _ List.mem_cons_self
    rw [List.append_nil] at last
    cases (List.mem_replicate.mp last).2

end Context.Settled

/-- An enumerator is rewound. -/
def Control.Rewinds (c : Control) (m : Machine) (self : Value) : Prop :=
  ∃ fn base argc kw blk f, c = .call fn self base argc kw blk ∧ m.functions.get fn = .ok f ∧ f.body = .builtin .enumRewind

namespace Machine

/-- The fiber of an enumerator waits for another fiber. -/
def WaitsOn (m : Machine) (self : Value) : Prop :=
  ∃ e id, m.heap.read self.toRef = .ok (.enumerator e) ∧ m.heap.read e.fiber.toRef = .ok (.fiber id) ∧
    some id ∈ m.waiting.map Context.fiber

/-- All threads are on their way to their ends, and fibers that are marked as active are in the chain. -/
structure Settled (m : Machine) : Prop where
  accounted : m.Accounted (fun _ => False) []
  chain : ∀ x ∈ m.chain, x.Settled
  stored : ∀ i x, (m.fibers.getD i default).context = some x → (m.fibers.getD i default).state = .dead ∨ x.Settled
  active : ∀ i, (m.fibers.getD i default).active = true → some i ∈ m.chain.map Context.fiber

namespace Settled

open Keeping

variable {m m' : Machine} {id : Nat} {x : Context} {rest : List Context} {f : Fiber → Fiber} {α : Type} {K : Known}
  {R : Known → α → Prop}

theorem steady (hm : m.Settled) (h : m.Steady m') (ha : m'.Accounted (fun _ => False) []) : m'.Settled where
  accounted := ha
  chain x hx := by
    have hx : x = m'.context ∨ x ∈ m.waiting := (List.mem_cons.mp hx).imp_right fun hx => h.waiting ▸ hx
    rcases hx with rfl | hx
    · exact (hm.chain _ List.mem_cons_self).of_eq h.fiber h.konts
    · exact hm.chain x (List.mem_cons_of_mem _ hx)
  stored i x hx := by
    rcases (h.fibers i).context with hc | ⟨hc, -⟩
    · exact (hm.stored i x (hc ▸ hx)).imp_left (h.fibers i).dead
    · cases hc.symm.trans hx
  active i hi := by
    have chain : m'.chain.map Context.fiber = m.chain.map Context.fiber := by
      simp only [Machine.chain, List.map_cons, h.fiber, h.waiting]
    exact chain ▸ hm.active i ((h.fibers i).active ▸ hi)

theorem stable : Stable Settled where
  alloc ho m hm := hm.steady ((Steady.stable m).alloc ho m (.refl m)) ((Accounted.stable _).alloc ho m hm.accounted)
  update v _ hf m hm := hm.steady ((Steady.stable m).update v hf m (.refl m)) ((Accounted.stable _).update v hf m hm.accounted)
  setEnabled on m hm :=
    hm.steady ((Steady.stable m).setEnabled on m (.refl m)) ((Accounted.stable _).setEnabled on m hm.accounted)
  classes hm := hm.steady (.of_stack _ rfl rfl rfl rfl) ((Accounted.stable _).classes hm.accounted)
  lookups hm := hm.steady (.of_stack _ rfl rfl rfl rfl) ((Accounted.stable _).lookups hm.accounted)
  functions hm hg := hm.steady (.of_stack _ rfl rfl rfl rfl) ((Accounted.stable _).functions hm.accounted hg)
  addFunction hm hb := hm.steady (.of_stack _ rfl rfl rfl rfl) ((Accounted.stable _).addFunction hm.accounted hb)
  newFiber body iteration m hm :=
    hm.steady ((Steady.stable m).newFiber body iteration m (.refl m)) (Accounted.kept_newFiber _ body iteration m hm.accounted)
  releaseFiber hi hK m hm := by
    obtain ⟨-, -, -, ha, -⟩ := (Accounted.stable _).releaseFiber hi hK m hm.accounted
    obtain ⟨-, -, -, hs, -⟩ := (Steady.stable m).releaseFiber hi hK m (.refl m)
    exact ⟨_, le_rfl, hK, hm.steady hs ha, fun _ _ _ => ⟨rfl, trivial⟩⟩
  steady hm h hs hc := hm.steady hs (hm.accounted.calm hc.toCalm h.options)

/-! ### Switching -/

theorem enter (hm : m.Settled) (pool : StackPool) (hx : x.fiber = some id) (hs : x.Settled)
    (ha : ({ m with pool }.enter id x).Accounted (fun _ => False) []) : ({ m with pool }.enter id x).Settled where
  accounted := ha
  chain y hy := by
    rcases List.mem_cons.mp hy with rfl | hy
    · exact hs
    · exact hm.chain y hy
  stored i y hy := by
    have hy : ((m.fibers.modify id Fiber.entered).getD i default).context = some y := hy
    rcases Logic.getD_modify m.fibers id i Fiber.entered with he | ⟨-, he⟩
    · exact he.symm ▸ hm.stored i y (he ▸ hy)
    · rw [he] at hy
      cases hy
  active i hi := by
    have hi : ((m.fibers.modify id Fiber.entered).getD i default).active = true := hi
    refine List.mem_cons.mpr ?_
    rcases Logic.getD_modify m.fibers id i Fiber.entered with he | ⟨rfl, -⟩
    · exact .inr (hm.active i (he ▸ hi))
    · exact .inl hx.symm

theorem leave (hm : m.Settled) (pool : StackPool) (hid : m.context.fiber = some id) (hw : m.waiting = x :: rest)
    (hf : ∀ y, (f y).active = false) (hx : ∀ y z, (f y).context = some z → (f y).state = .dead ∨ z.Settled)
    (ha : { m.leave id f x rest with pool }.Accounted (fun _ => False) []) :
    { m.leave id f x rest with pool }.Settled where
  accounted := ha
  chain y hy := hm.chain y (List.mem_cons_of_mem _ (hw ▸ hy))
  stored i y hy := by
    have hy : ((m.fibers.modify id f).getD i default).context = some y := hy
    show ((m.fibers.modify id f).getD i default).state = .dead ∨ _
    rcases Logic.getD_modify m.fibers id i f with he | ⟨-, he⟩
    · exact he.symm ▸ hm.stored i y (he ▸ hy)
    · exact he.symm ▸ hx _ y (he ▸ hy)
  active i hi := by
    have hi : ((m.fibers.modify id f).getD i default).active = true := hi
    by_cases he : i = id
    · subst he
      rw [getD_modify_self f (hm.accounted.chained.live i (hid ▸ List.mem_cons_self)).1, hf] at hi
      cases hi
    · rw [getD_modify_ne f he] at hi
      have there := hm.active i hi
      rw [Machine.chain, hw, List.map_cons, hid, List.mem_cons] at there
      exact there.resolve_left fun h => he (Option.some.inj h)

theorem leave_over (hm : m.Settled) (hid : m.context.fiber = some id) (hw : m.waiting = x :: rest) :
    { m.leave id (fun f => { f with active := false, state := .dead }) x rest with
      pool := m.pool.put m.context.stack }.Settled :=
  hm.leave _ hid hw (fun _ => rfl) (fun _ _ _ => .inl rfl) (hm.accounted.finish hid hw)

theorem still (hm : m.Settled) (h : m.Still m') (ho : m'.options = m.options) : m'.Settled where
  accounted := hm.accounted.calm h.toCalm ho
  chain x hx := by
    have hx : x = m'.context ∨ x ∈ m.waiting := (List.mem_cons.mp hx).imp_right fun hx => h.waiting ▸ hx
    rcases hx with rfl | hx
    · exact (hm.chain _ List.mem_cons_self).of_eq h.fiber h.konts
    · exact hm.chain x (List.mem_cons_of_mem _ hx)
  stored i x hx := h.fibers ▸ hm.stored i x (h.fibers ▸ hx)
  active i hi := by
    have chain : m'.chain.map Context.fiber = m.chain.map Context.fiber := by
      simp only [Machine.chain, List.map_cons, h.fiber, h.waiting]
    exact chain ▸ hm.active i (h.fibers ▸ hi)

/-- The running thread has something else left to be done. -/
theorem setKonts {ks : List Kont} (hm : m.Settled) (hs : { m.context with konts := ks }.Settled) :
    { m with context.konts := ks }.Settled where
  accounted := hm.accounted.calm ⟨rfl, rfl, rfl, rfl, rfl⟩ rfl
  chain x hx := by
    rcases List.mem_cons.mp hx with rfl | hx
    · exact hs
    · exact hm.chain x (List.mem_cons_of_mem _ hx)
  stored := hm.stored
  active := hm.active

theorem heeding_pushKont (k : Kont) (hk : k.isLast = false) : Heeding Settled K (pushKont k) (Same K fun _ => True) :=
  .of_placid (changed fun _ _ hm => ⟨hm.setKonts ((hm.chain _ List.mem_cons_self).cons hk), trivial⟩) (.modifyGet _)

theorem heeding_suspend (v : Value) : Heeding Settled K (Exec.suspend v) (Same K K.control) := by
  have left (m : Machine) (hm : m.Settled) : ∃ c m', Exec.suspend v m = .ok c m' ∧ m'.Settled := by
    cases hf : m.context.fiber with
    | none => exact ⟨_, _, suspend_root hf, hm⟩
    | some id =>
      obtain ⟨-, x, rest, hw⟩ := hm.accounted.running hf
      obtain ⟨m', he, -, ha⟩ := hm.accounted.suspend (v := v) hf
      cases (suspend_apply hf hw).symm.trans he
      let aside (f : Fiber) : Fiber := { f with active := false, context := some m.context, lastYield := some v }
      refine ⟨_, _, he, hm.leave (f := aside) m.pool hf hw (fun _ => rfl) (fun _ y hy => .inr ?_) ha⟩
      cases hy
      exact hm.chain _ List.mem_cons_self
  exact .of_ok left fun hK c => hK.control c

/-- A fiber that is started has its end left to be done. -/
theorem heeding_resumeFiber (id : Nat) {vs : List Value} (packed : Heeding Settled K (pack vs) Known.value)
    (begun : ∀ f, K.fiber f → Heeding Settled K (beginFiber f vs) Known.control) :
    Heeding Settled K (Exec.resumeFiber id vs) Known.control := by
  refine .of_eq fun hK m hm => ?_
  cases hf : m.fibers[id]? with
  | none => exact ⟨throw .fault, m, resumeFiber_absent hf, hm, (Heeding.basics Settled).throw rfl⟩
  | some f =>
    obtain ⟨hid, -⟩ := Array.getElem?_eq_some_iff.mp hf
    have hg : m.fibers.getD id default = f := by rw [Array.getD_eq_getD_getElem?, hf, Option.getD_some]
    by_cases hd : f.state = .dead
    · exact ⟨pure (.fail .deadFiber), m, resumeFiber_dead hf hd, hm, .pure (hK.control _)⟩
    by_cases ha : f.active = true
    · exact ⟨pure (.fail .currentFiber), m, resumeFiber_active hf hd ha, hm, .pure (hK.control _)⟩
    have ha := Bool.eq_false_of_not_eq_true ha
    cases hc : f.context with
    | some x =>
      refine ⟨_, _, resumeFiber_stored hf hd ha hc, ?_, packed.bind fun _ _ _ hv => .pure hv⟩
      subst hg
      exact hm.enter m.pool (hm.accounted.chained.own id x hc) ((hm.stored id x hc).resolve_left hd)
        (hm.accounted.enter_stored hid hd ha hc)
    | none =>
      let x : Context := { stack := m.pool.take.1, fiber := some id, konts := [f.lastKont] }
      have started : startFiber f vs ({ m with pool := m.pool.take.2 }.enter id { stack := m.pool.take.1, fiber := some id }) =
          beginFiber f vs ({ m with pool := m.pool.take.2 }.enter id x) := congrFun (startFiber_eq f vs) _
      refine ⟨_, _, (resumeFiber_new hf hd ha hc).trans started, ?_, begun f (hK.fiber f)⟩
      subst hg
      exact hm.enter _ rfl ⟨0, congrArg (fun b => [b]) (Fiber.isLast_lastKont _)⟩
        ((hm.accounted.enter_new hid hd ha hc).calm ⟨rfl, rfl, rfl, rfl, rfl⟩ rfl)

theorem logic : CallLogic (Heeding Settled) :=
  { Heeding.logic stable with
    change := fun _ hf => .of_placid (changed fun m hk hm => by
      obtain ⟨h, hc, -⟩ := hf m hk
      exact ⟨hm.still hc h.options, trivial⟩) (.modifyGet _)
    pushKont := fun _ hk => heeding_pushKont _ hk
    resume := fun _ => heeding_resumeFiber _
    suspend := fun _ => heeding_suspend _ }

theorem collect : Heeding Settled K Exec.collect (Same K fun _ => True) := by
  have heap {α : Type} {x : HeapM Object α} (hx : Placid x) : Heeding Settled K (onHeap x) (Same K fun _ => True) :=
    .of_placid (of_kept (fun m hm => hm.still (Accounted.still_onHeap x m).1 (Accounted.still_onHeap x m).2)
      fun _ _ _ _ _ => ⟨rfl, trivial⟩) (.onHeap hx)
  have collected (hK : K.All) : Heeding Settled K Exec.collect (Same K fun _ => True) :=
    logic.collectBy hK.fib (heap (.modifyGet _)) (fun _ _ => heap (.markValues _ _)) (heap .sweep) (heap (.modifyGet _))
      fun _ => .of_placid (changed fun _ _ hm => ⟨hm.still (.of_eq rfl rfl rfl rfl) rfl, trivial⟩) (.modifyGet _)
  exact ⟨fun hK => (collected hK).1 hK, fun hK => (collected hK).2 hK⟩

theorem collectLogic : CollectLogic (Heeding Settled) (Heeding Settled) :=
  { logic with
    plain := fun h => h
    andThen := .bind
    giving := fun hx h => hx.bind fun K' a hle ha => .pure (h K' a hle ha)
    lookThen := logic.look
    collect := collect }

/-! ### Steps -/

/-- The end of a fiber is what it finishes with. -/
theorem resumeKont_last {k : Kont} (hk : k.isLast = true) (r : Except Failure Value) :
    ∃ r', resumeKont k r = Exec.finishFiber r' := by
  cases k with
  | fiberBody => exact ⟨r, rfl⟩
  | fiberIteration =>
    cases r with
    | ok v => exact ⟨.error { cause := .exhausted, value := v }, rfl⟩
    | error f => exact ⟨.error f, rfl⟩
  | _ => cases hk

end Settled

/-- What a computation comes to is settled. It ends with a thread left out of order only where `E` holds. -/
structure Settles (m : Machine) {α : Type} (x : Exec α) (E : Machine → Prop) : Prop where
  ok : ∀ a m', x m = .ok a m' → m'.Settled
  error : ∀ m', x m = .error .switchOrder m' → E m'

namespace Settles

variable {α β : Type} {m : Machine} {x : Exec α} {E E' : Machine → Prop} {id : Nat}

theorem of_ok {a : α} {m' : Machine} (h : x m = .ok a m') (hm' : m'.Settled) : m.Settles x E where
  ok a' m₁ h₁ := by
    cases h.symm.trans h₁
    exact hm'
  error m₁ h₁ := by cases h.symm.trans h₁

theorem of_eq {y : Exec α} {m₁ : Machine} (h : x m = y m₁) (hy : m₁.Settles y E) : m.Settles x E :=
  ⟨fun a m' h' => hy.ok a m' (h ▸ h'), fun m' h' => hy.error m' (h ▸ h')⟩

theorem of_heeding {n : Nat} {R : Known → α → Prop} (hm : m.Settled) (hx : Heeding Settled (.anything n) x R) :
    m.Settles x E where
  ok a m' h := by
    obtain ⟨-, -, -, hm', -⟩ := hx.1 (Known.all_anything n) m hm
    rwa [after_of_ok h] at hm'
  error m' h := absurd h (hx.2 (Known.all_anything n) m hm m')

theorem bind {f : α → Exec β} (hx : m.Settles x E) (hf : ∀ a m', x m = .ok a m' → m'.Settled → m'.Settles (f a) E) :
    m.Settles (x >>= f) E where
  ok b m' h := by
    obtain ⟨a, m₁, ha, h₁⟩ := exists_of_bind h
    exact (hf a m₁ ha (hx.ok a m₁ ha)).ok b m' h₁
  error m' h := by
    rw [bind_apply] at h
    split at h
    · exact (hf _ _ ‹_› (hx.ok _ _ ‹_›)).error m' h
    · cases h
      exact hx.error _ ‹_›

theorem mono (h : m.Settles x E) (hE : ∀ m', E m' → E' m') : m.Settles x E' := ⟨h.ok, fun m' h' => hE m' (h.error m' h')⟩

theorem giving {g : α → β} (h : m.Settles x E) : m.Settles (x >>= fun a => pure (g a)) E :=
  h.bind fun _ _ _ hm' => .of_ok rfl hm'

/-- A fiber can be abandoned by code that runs on it, but not by code that runs on a fiber that it waits for. -/
theorem abandonRunning (hm : m.Settled) (ha : (m.fibers.getD id default).active = true) :
    m.Settles (Exec.abandonRunning id) fun m' => m' = m ∧ some id ∈ m.waiting.map Context.fiber := by
  have there := hm.active id ha
  rw [chain, List.map_cons, List.mem_cons] at there
  by_cases hf : m.context.fiber = some id
  · obtain ⟨-, x, rest, hw⟩ := hm.accounted.running hf
    cases hv : (m.fibers.getD id default).lastYield with
    | none => exact .of_ok (abandonRunning_fresh hf hw hv) (hm.leave_over hf hw)
    | some v =>
      obtain ⟨_, _, he, -, ha'⟩ := hm.accounted.abandonRunning hf
      have abandoned := abandonRunning_yielded hf hw hv
      cases abandoned.symm.trans he
      let gone (f : Fiber) : Fiber := { f with active := false, state := .dead, context := some { m.context with konts := [] } }
      exact .of_ok abandoned (hm.leave (f := gone) m.pool hf hw (fun _ => rfl) (fun _ _ _ => .inl rfl) ha')
  · refine ⟨fun a m' h => ?_, fun m' h => ?_⟩
    · cases (abandonRunning_away hf).symm.trans h
    · cases (abandonRunning_away hf).symm.trans h
      exact ⟨rfl, there.resolve_left fun h => hf h.symm⟩

theorem rewind (hm : m.Settled) (self : Value) :
    m.Settles (Builtin.rewind self) fun m' => m'.WaitsOn self := by
  have L := Settled.logic
  have known (v : Value) : (Known.anything 0).value v := trivial
  refine .bind (.of_heeding hm (L.enumeratorOf (known self))) fun e m₁ he _ => ?_
  obtain ⟨rfl, henum⟩ := enumeratorOf_ok he
  refine .bind (.of_heeding hm (L.asFiber? (known _))) fun r m₁ hr hm₁ => ?_
  cases r with
  | none => exact .of_heeding hm₁ (L.seq (L.setEnumeratorFiber (known self) (known _)) fun _ _ => L.pure (R := Known.control) trivial)
  | some id =>
    obtain ⟨rfl, hfiber⟩ := asFiber?_ok hr
    refine .bind (.of_ok rfl hm) fun f m₁ hf _ => ?_
    cases hf
    split
    · exact (abandonRunning hm ‹_›).mono fun m' h => h.1 ▸ ⟨e, id, henum, hfiber, h.2⟩
    · exact .of_heeding hm (L.seq (L.releaseFiber trivial) fun _ _ =>
        L.seq (L.setEnumeratorFiber (known self) (known _)) fun _ _ => L.pure (R := Known.control) trivial)

theorem deliver {r : Except Failure Value} (hm : m.Settled) : m.Settles (step (.deliver r)) E := by
  cases hk : m.context.konts with
  | nil => exact .of_ok (deliver_nil hk) hm
  | cons k rest =>
    refine .of_eq (deliver_cons hk) (giving ?_)
    rcases (hm.chain _ List.mem_cons_self).pop hk with ⟨hl, hs⟩ | ⟨hl, id, hid⟩
    · have known : (Known.anything 0).kont k ∧ (Known.anything 0).result r :=
        ⟨(Known.all_anything 0).kont k, (Known.all_anything 0).control (.deliver r)⟩
      refine .of_heeding (hm.setKonts hs) (Settled.logic.resumeKont (fun h => ?_) known.1 known.2)
      cases hl.symm.trans h
    · obtain ⟨r', hr⟩ := Settled.resumeKont_last hl r
      obtain ⟨-, x, waiting, hw⟩ := hm.accounted.running hid
      rw [hr]
      exact .of_ok (finishFiber_apply (m := { m with context.konts := rest }) hid hw) (hm.leave_over hid hw)

/-- Only a call that rewinds an enumerator may be asked to leave a thread that another one waits for. -/
theorem call (hm : m.Settled) (fn : FnId) (self : Value) (base argc : Int) (kw : Value) (blk : Option Block) :
    m.Settles (Exec.call fn self base argc kw blk) fun m' =>
      (Control.call fn self base argc kw blk).Rewinds m self ∧ m'.WaitsOn self := by
  have L := Settled.collectLogic
  let K := Known.anything (argc.toNat + 1)
  have known (v : Value) : K.value v := trivial
  have hb : K.blockArg blk := maybe_all (Known.all_anything _).block blk
  rw [call_eq]
  refine .bind (.of_heeding hm (L.function (K := K) fn)) fun f m₁ hf hm₁ => ?_
  obtain ⟨_, _, hg, hf⟩ := exists_of_bind hf
  cases hg
  obtain ⟨hf, rfl⟩ := lift_ok hf
  by_cases hbody : f.body = .builtin .enumRewind
  · unfold Function.enter
    extract_lets attr
    rw [hbody]
    refine .bind (.of_heeding hm₁ (L.enterBuiltin (K := K) f.arity base argc (known self) (known kw) hb)) fun r m₂ _ hm₂ => ?_
    cases r with
    | error e => exact .of_ok rfl hm₂
    | ok args =>
      have rewound : attempt (Builtin.run .enumRewind self args blk) = Builtin.rewind self := attempt_lift _
      dsimp only
      rw [rewound]
      exact (rewind hm₂ self).mono fun m' h => ⟨⟨fn, base, argc, kw, blk, f, rfl, hf, hbody⟩, h⟩
  · refine .of_heeding hm (L.called (K := K) fn base argc (fun h => absurd h hbody) ?_ (known _) (known _) hb le_rfl)
    exact (Known.all_anything _).function f

theorem step {c : Control} (hm : m.Settled) : m.Settles (step c) fun m' => ∃ self, c.Rewinds m self ∧ m'.WaitsOn self := by
  have L := Settled.collectLogic
  cases c with
  | exec a pc => exact giving (.of_heeding hm (L.exec (K := .anything 1) pc ((Known.all_anything 1).control (.exec a pc))
      (Known.ready_anything (.exec a pc))))
  | call fn self base argc kw blk => exact giving ((call hm fn self base argc kw blk).mono fun m' h => ⟨self, h⟩)
  | yield b base argc => exact giving (.of_heeding hm (L.enterBlock (K := .anything 1)
      ((Known.all_anything 1).control (.yield b base argc)) base argc))
  | deliver r => exact deliver hm
  | host h => exact .of_ok rfl hm

end Settles

end Machine

/-! ## Lives -/

/-- What comes next: a step of the machine, or what its host does while it has it in hand. -/
inductive Lives : Control → Machine → Control → Machine → Prop where
  | step {c c' : Control} {m m' : Machine} : Exec.step c m = .ok (.inl c') m' → Lives c m c' m'
  | call {h : HostCall} {c : Control} {m m' : Machine} (e : Entry) : e.start m = .ok c m' → Lives (.host h) m c m'
  | resume {h : HostCall} {c : Control} {m m' : Machine} (id : Nat) (args : List Value) :
    resumeFiber id args m = .ok c m' → Lives (.host h) m c m'
  | newFiber {h : HostCall} {v : Value} {m m' : Machine} (body : Value) (iteration : Option Iteration) :
    Exec.newFiber body iteration m = .ok v m' → Lives (.host h) m (.host h) m'
  | dupFiber {h : HostCall} {v : Value} {m m' : Machine} (id : Nat) :
    Exec.dupFiber id m = .ok v m' → Lives (.host h) m (.host h) m'
  | releaseFiber {h : HostCall} {m m' : Machine} (id : Nat) : some id ∉ m.chain.map Context.fiber →
    Exec.releaseFiber id m = .ok () m' → Lives (.host h) m (.host h) m'
  | collect {h : HostCall} {n : Collection} {m m' : Machine} :
    Exec.collect m = .ok n m' → Lives (.host h) m (.host h) m'
  | boot {h : HostCall} {m m' : Machine} : Exec.boot m = .ok () m' → Lives (.host h) m (.host h) m'
  /-- Whatever has nothing to do with threads. -/
  | tend {h : HostCall} {m m' : Machine} : m.Still m' → m'.options = m.options → Lives (.host h) m (.host h) m'
  /-- What was left undone on the root is forgotten. -/
  | restart {c : Control} {m : Machine} (h : HostCall) : m.context.fiber = none → Lives c m (.host h) (after Exec.restart m)
  /-- The host has the outcome of a call that it made. -/
  | back {r : Except Failure Value} {m : Machine} (h : HostCall) : Lives (.deliver r) m (.host h) m
  | answer {h : HostCall} {m : Machine} (r : Except Failure Value) : Lives (.host h) m (.deliver r) m

/-- What comes in the end, one thing after the other. -/
inductive Life (c₀ : Control) (m₀ : Machine) : Control → Machine → Prop where
  | now : Life c₀ m₀ c₀ m₀
  | next {c c' : Control} {m m' : Machine} : Life c₀ m₀ c m → Lives c m c' m' → Life c₀ m₀ c' m'

open Machine

variable {c c' c₀ : Control} {m m' m₀ : Machine} {dead : Nat → Prop} {id : Nat}

theorem Entry.start_accounted (e : Entry) (hm : m.Accounted dead []) (h : e.start m = .ok c m') : m'.Accounted dead [] :=
  hm.run (e.start_known (Accounted.logic dead)) h

theorem Lives.accounted (h : Lives c m c' m') (hm : m.Accounted dead []) : m'.Accounted dead [] := by
  have L := Accounted.logic dead
  have hvs (vs : List Value) : (Known.anything 0).values vs := fun _ _ => trivial
  have hi (i : Option Iteration) : Maybe (Known.anything 0).iteration i := maybe_all (Known.all_anything _).iteration i
  cases h with
  | step h => exact hm.step h
  | call e h => exact e.start_accounted hm h
  | resume id args h => exact hm.run (k := 0) (L.resumeFiber trivial (hvs _)) h
  | newFiber body iteration h => exact hm.run (k := 0) (L.newFiber trivial (hi _)) h
  | dupFiber id h => exact hm.run (k := 0) (L.fiber trivial (fun _ _ => rfl) fun f _ => L.newFiber trivial (hi _)) h
  | releaseFiber id _ h => exact hm.run (k := 0) (L.releaseFiber trivial) h
  | collect h => exact hm.run (k := 0) (Accounted.collect dead) h
  | boot h => exact hm.run (L.boot Nat.one_pos) h
  | tend hc ho => exact hm.calm hc.toCalm ho
  | restart => exact hm.calm ⟨rfl, rfl, rfl, rfl, rfl⟩ rfl
  | back => exact hm
  | answer => exact hm

theorem Life.accounted (h : Life c₀ m₀ c m) (hm : m₀.Accounted dead []) : m.Accounted dead [] := by
  induction h with
  | now => exact hm
  | next _ hn ih => exact hn.accounted ih

theorem Machine.Settled.resumes (hm : m.Settled) (id : Nat) (args : List Value) :
    m.Settles (resumeFiber id args) fun _ => False :=
  .of_heeding hm (Settled.logic.resumeFiber (K := .anything 0) trivial fun _ _ => trivial)

theorem Lives.settled (h : Lives c m c' m') (hm : m.Settled) : m'.Settled := by
  have L := Settled.logic
  have K := Known.all_anything 0
  have settles {α : Type} {x : Exec α} {R : Known → α → Prop} {n : Nat} (hx : Heeding Settled (.anything n) x R) :
      m.Settles x fun _ => False := .of_heeding hm hx
  have hi (i : Option Iteration) : Maybe (Known.anything 0).iteration i := maybe_all K.iteration i
  cases h with
  | step h => exact (Settles.step hm).ok _ _ h
  | call e h => exact (settles (e.start_known L)).ok _ _ h
  | resume id args h => exact (hm.resumes id args).ok _ _ h
  | newFiber body iteration h => exact (settles (L.newFiber (K := .anything 0) trivial (hi _))).ok _ _ h
  | dupFiber id h =>
    exact (settles (L.fiber (K := .anything 0) trivial (fun _ _ => rfl) fun f _ => L.newFiber trivial (hi _))).ok _ _ h
  | releaseFiber id _ h => exact (settles (L.releaseFiber (K := .anything 0) trivial)).ok _ _ h
  | collect h => exact (settles (Settled.collect (K := .anything 0))).ok _ _ h
  | boot h => exact (settles (L.boot (K := .anything 1) Nat.one_pos)).ok _ _ h
  | tend hs ho => exact hm.still hs ho
  | restart _ hroot => exact hm.setKonts (.idle hroot rfl)
  | back => exact hm
  | answer => exact hm

theorem Machine.Settled.blank (options : Options) : (Machine.blank options).Settled where
  accounted := .blank options
  chain x hx := by
    cases List.mem_singleton.mp hx
    exact .idle rfl rfl
  stored i x hx := by cases hx
  active i hi := by cases hi

theorem Life.settled (h : Life c₀ m₀ c m) (hm : m₀.Settled) : m.Settled := by
  induction h with
  | now => exact hm
  | next _ hn ih => exact hn.settled ih

/-! ## What holds of every life -/

/-- Whether a fiber has a thread, which runs, waits or was put aside. -/
def Machine.holds (m : Machine) (id : Nat) : Bool :=
  (m.fibers.getD id default).context.isSome || (m.chain.map Context.fiber).contains (some id)

namespace Machine.Accounted

variable {l : List Nat}

/-- Apart from the root, there is a thread for each fiber that has one. -/
theorem threads_length (h : m.Accounted dead l) :
    m.threads.length = (List.range m.fibers.size).countP m.holds + 1 := by
  obtain ⟨ids, hids⟩ := h.chained.root
  have mem_ids (id : Nat) : some id ∈ m.chain.map Context.fiber ↔ id ∈ ids := by simp [hids]
  have distinct : ids.Nodup := by
    have hd := h.chained.distinct
    rw [hids] at hd
    exact hd.of_append_left.of_map _
  let aside (id : Nat) : Bool := (m.fibers.getD id default).context.isSome
  have apart : (ids ++ (List.range m.fibers.size).filter aside).Nodup := by
    refine distinct.append (List.nodup_range.filter _) fun id hid hs => ?_
    have none := (h.chained.live id ((mem_ids id).mpr hid)).2.2
    have some := (List.mem_filter.mp hs).2
    rw [show aside id = (m.fibers.getD id default).context.isSome from rfl, none] at some
    cases some
  have all : (ids ++ (List.range m.fibers.size).filter aside).Perm ((List.range m.fibers.size).filter m.holds) := by
    refine (List.perm_ext_iff_of_nodup apart (List.nodup_range.filter _)).mpr fun id => ?_
    have there (hid : id ∈ ids) : id < m.fibers.size := (h.chained.live id ((mem_ids id).mpr hid)).1
    simp only [List.mem_append, List.mem_filter, List.mem_range, holds, Bool.or_eq_true, List.contains_iff_mem, mem_ids]
    tauto
  have chain : m.chain.length = ids.length + 1 := by
    rw [← List.length_map Context.fiber, hids]
    simp
  have suspended : (Fiber.suspended m.fibers).length = ((List.range m.fibers.size).filter aside).length := by
    rw [Fiber.suspended, List.length_filterMap_eq_countP, List.countP_eq_length_filter]
  have count := all.length_eq
  rw [List.length_append] at count
  rw [threads, List.length_append, chain, suspended, List.countP_eq_length_filter, ← count]
  omega

end Machine.Accounted

theorem Machine.Accounted.held_once (h : m.Accounted dead []) : m.stackIds.Nodup := h.tallied.apart

/-- What was handed out and not given back is what fibers have. -/
theorem Machine.Accounted.started_sub_released (h : m.Accounted dead []) :
    m.pool.stats.started - m.pool.stats.released = .ofNat ((List.range m.fibers.size).countP m.holds) := by
  have taken : m.pool.taken + 1 = m.pool.returned + .ofNat ((List.range m.fibers.size).countP m.holds) + 1 := by
    rw [h.tallied.taken, h.threads_length, List.length_nil, Nat.zero_add, Tallied.ofNat_succ, UInt64.add_assoc]
  rw [UInt64.add_left_inj] at taken
  show m.pool.taken - m.pool.returned = _
  rw [taken, UInt64.add_comm, UInt64.add_sub_cancel]

/-- A fiber that is dead stays so, whatever comes. -/
theorem Machine.Accounted.dead_forever {f : Fiber} (hm : m.Accounted (fun _ => False) []) (hf : m.fibers[id]? = some f)
    (hd : f.state = .dead) (h : Life c m c' m') : ∃ f', m'.fibers[id]? = some f' ∧ f'.state = .dead := by
  have here : m.Accounted (· = id) [] := { hm with
    dead := by
      rintro _ rfl
      obtain ⟨hid, he⟩ := Array.getElem?_eq_some_iff.mp hf
      rw [Array.getD_eq_getD_getElem?, hf]
      exact ⟨hid, hd⟩ }
  obtain ⟨hid, there⟩ := (h.accounted here).dead id rfl
  refine ⟨_, Array.getElem?_eq_getElem hid, ?_⟩
  rwa [Array.getD_eq_getD_getElem?, Array.getElem?_eq_getElem hid] at there

/-- A fiber that runs or waits for another one is not resumed. -/
theorem Machine.Accounted.resumeFiber_live {l : List Nat} (hm : m.Accounted dead l)
    (hid : some id ∈ m.chain.map Context.fiber) (args : List Value) :
    ∃ f, resumeFiber id args m = .ok (.failure f) m ∧ f.kind = .fiber := by
  obtain ⟨hlt, ha, -⟩ := hm.chained.live id hid
  have here := Array.getElem?_eq_getElem hlt
  by_cases hd : m.fibers[id].state = .dead
  · exact ⟨_, resumeFiber_dead here hd, rfl⟩
  · rw [Array.getD_eq_getD_getElem?, here] at ha
    exact ⟨_, resumeFiber_active here hd ha, rfl⟩

/-- The root waits for no other thread. -/
theorem Machine.Accounted.chain_root {l : List Nat} (hm : m.Accounted dead l) (hroot : m.context.fiber = none) :
    m.chain = [m.context] := by
  have hc := hm.chained
  rw [chain, List.map_cons, hroot] at hc
  rw [chain, List.map_eq_nil_iff.mp hc.alone]

theorem Exec.step_done {r : Except Failure Value} (h : step c m = .ok (.inr (.done r)) m') :
    m' = m ∧ m.context.konts = [] := by
  cases c with
  | deliver r' =>
    cases hk : m.context.konts with
    | nil =>
      cases (deliver_nil hk).symm.trans h
      exact ⟨rfl, rfl⟩
    | cons k rest =>
      obtain ⟨_, _, -, h₁⟩ := exists_of_bind ((deliver_cons hk).symm.trans h)
      cases h₁
  | host => cases h
  | exec | call | yield =>
    obtain ⟨_, _, -, h₁⟩ := exists_of_bind h
    cases h₁

/-- Whatever a machine and its host do from the start on: a dead fiber stays dead and is not resumed, nor is one that
runs or waits; one that runs can always be left for the thread below it, and a thread is left out of order nowhere but
where an enumerator is rewound on whose fiber another one waits. When there is nothing left to be done, and when what
the host resumed from the root has come to something, the root is all of the chain. Each stack has one owner, and as
many are handed out as fibers have. -/
theorem Life.lifecycle {options : Options} {h₀ : HostCall} (h : Life (.host h₀) (.blank options) c m) :
    (∀ id f, m.fibers[id]? = some f → f.state = .dead →
      (∀ args, resumeFiber id args m = .ok (.fail .deadFiber) m) ∧
      ∀ c' m', Life c m c' m' → ∃ f', m'.fibers[id]? = some f' ∧ f'.state = .dead) ∧
    (∀ id args, some id ∈ m.chain.map Context.fiber →
      ∃ f, resumeFiber id args m = .ok (.failure f) m ∧ f.kind = .fiber) ∧
    (∀ id, m.context.fiber = some id →
      (∃ m', leaveFiber id m = .ok () m' ∧ m'.chain = m.waiting) ∧
      (∀ v, ∃ m', suspend v m = .ok (.value v) m' ∧ m'.chain = m.waiting) ∧
      ∀ r, ∃ m', finishFiber r m = .ok (.deliver (r.mapError Failure.escape)) m' ∧ m'.chain = m.waiting) ∧
    (m.context.fiber = none → m.chain = [m.context]) ∧
    (∀ m', Exec.step c m = .error .switchOrder m' → ∃ self, c.Rewinds m self ∧ m'.WaitsOn self) ∧
    (∀ id args m', resumeFiber id args m ≠ .error .switchOrder m') ∧
    (∀ r m', Exec.step c m = .ok (.inr (.done r)) m' → m'.context.fiber = none ∧ m'.chain = [m'.context]) ∧
    (m.context.fiber = none → ∀ id args c₁ m₁, resumeFiber id args m = .ok c₁ m₁ → ∀ r m', Life c₁ m₁ (.deliver r) m' →
      m'.context.konts = m.context.konts → m'.context.fiber = none ∧ m'.chain = [m'.context]) ∧
    m.pool.stats.started - m.pool.stats.released = .ofNat ((List.range m.fibers.size).countP m.holds) ∧
    m.stackIds.Nodup ∧ (∀ s ∈ m.pool.free, s.len = 0) ∧ m.pool.free.length ≤ m.options.fiberPool.toNat := by
  have hs : m.Settled := h.settled (.blank options)
  have hm := hs.accounted
  refine ⟨fun id f hf hd => ⟨fun args => resumeFiber_dead hf hd, fun c' m' => hm.dead_forever hf hd⟩,
    fun id args hid => hm.resumeFiber_live hid args, fun id hid => ⟨?_, fun v => ?_, fun r => ?_⟩, hm.chain_root,
    (Settles.step hs).error, fun id args => ?_, fun r m' hdone => ?_, fun hroot id args c₁ m₁ hr r m' hl hk => ?_,
    hm.started_sub_released, hm.held_once, hm.tallied.empty, hm.tallied.capacity ▸ hm.tallied.room⟩
  · obtain ⟨-, x, rest, hw⟩ := hm.running hid
    exact ⟨_, leaveFiber_apply hw, hw.symm⟩
  · obtain ⟨m', hs, hw, -⟩ := hm.suspend (v := v) hid
    exact ⟨m', hs, hw⟩
  · obtain ⟨m', hs, hw, -⟩ := hm.finishFiber (r := r) hid
    exact ⟨m', hs, hw⟩
  · exact (hs.resumes id args).error
  · obtain ⟨rfl, hk⟩ := step_done hdone
    have root := (hs.chain _ List.mem_cons_self).root hk
    exact ⟨root, hm.chain_root root⟩
  · have hs' : m'.Settled := hl.settled ((hs.resumes id args).ok c₁ m₁ hr)
    have root := (hs'.chain _ List.mem_cons_self).root_of_konts (hs.chain _ List.mem_cons_self) hroot hk
    exact ⟨root, hs'.accounted.chain_root root⟩

/-! ### Lives that are written down -/

/-- What comes next, as it can be asked for. -/
inductive Deed where
  | step
  | alloc (o : Object)
  | newFiber (body : Value) (iteration : Option Iteration)
  | resume (id : Nat)
  | back

namespace Deed

def apply (c : Control) (m : Machine) : Deed → Option (Control × Machine)
  | .step =>
    match Exec.step c m with
    | .ok (.inl c') m' => some (c', m')
    | _ => none
  | .alloc o =>
    match c with
    | .host h => some (.host h, after (Exec.alloc o) m)
    | _ => none
  | .newFiber body iteration =>
    match c, Exec.newFiber body iteration m with
    | .host h, .ok _ m' => some (.host h, m')
    | _, _ => none
  | .resume id =>
    match c, resumeFiber id [] m with
    | .host _, .ok c' m' => some (c', m')
    | _, _ => none
  | .back =>
    match c with
    | .deliver _ => some (.host .idle, m)
    | _ => none

theorem resumeFiber_ok {id : Nat} (h : (Deed.resume id).apply c m = some (c', m')) : resumeFiber id [] m = .ok c' m' := by
  unfold apply at h
  dsimp only at h
  split at h
  · cases h
    assumption
  · cases h

theorem exists_deliver {y : Control × Machine} (h : Deed.back.apply c m = some y) : ∃ r, c = .deliver r := by
  cases c with
  | deliver r => exact ⟨r, rfl⟩
  | _ => cases h

theorem lives {x : Deed} (h : x.apply c m = some (c', m')) : Lives c m c' m' := by
  cases x with
  | step =>
    unfold apply at h
    dsimp only at h
    split at h
    · cases h
      exact .step ‹_›
    · cases h
  | alloc o =>
    unfold apply at h
    dsimp only at h
    split at h
    · cases h
      exact .tend (Accounted.still_onHeap _ m).1 (Accounted.still_onHeap _ m).2
    · cases h
  | newFiber body iteration =>
    unfold apply at h
    dsimp only at h
    split at h
    · cases h
      exact .newFiber body iteration ‹_›
    · cases h
  | resume id =>
    unfold apply at h
    dsimp only at h
    split at h
    · cases h
      exact .resume id [] ‹_›
    · cases h
  | back =>
    obtain ⟨r, rfl⟩ := exists_deliver h
    cases h
    exact .back .idle

/-- What deeds come to, one after the other. -/
def all : List Deed → Control → Machine → Option (Control × Machine)
  | [], c, m => some (c, m)
  | x :: xs, c, m => (x.apply c m).bind fun (c', m') => all xs c' m'

theorem life {xs : List Deed} (hl : Life c₀ m₀ c m) (h : all xs c m = some (c', m')) : Life c₀ m₀ c' m' := by
  induction xs generalizing c m with
  | nil =>
    cases h
    exact hl
  | cons x xs ih =>
    obtain ⟨⟨c₁, m₁⟩, hx, h⟩ := Option.bind_eq_some_iff.mp h
    exact ih (hl.next (lives hx)) h

end Deed

/-- The first of three fibers suspends itself and is over when it is resumed once more. An enumerator's fiber comes to
its end next, and the root is all of the chain again. The last fiber goes on with the stack that both have had. -/
theorem exists_life : ∃ c m, Life (.host .idle) (.blank {}) c m ∧
    (∀ args, resumeFiber 0 args m = .ok (.fail .deadFiber) m) ∧
    (∃ f, resumeFiber 1 [] m = .ok (.failure f) m ∧ f.kind = .fiber) ∧
    (∀ v, ∃ m', suspend v m = .ok (.value v) m' ∧ m'.chain = m.waiting) ∧
    m.pool.reused = 2 ∧ m.pool.stats.started - m.pool.stats.released = 1 ∧ m.stackIds.Nodup ∧
    ∃ c₀ m₀ c₁ m₁ r m', Life (.host .idle) (.blank {}) c₀ m₀ ∧ m₀.context.fiber = none ∧
      resumeFiber 2 [] m₀ = .ok c₁ m₁ ∧ m₁.chain.map Context.fiber = [some 2, none] ∧
      Life c₁ m₁ (.deliver r) m' ∧ m'.chain = [m'.context] := by
  have ran : ((Deed.all [.alloc (.proc { body := .emit }), .newFiber emitter none, .newFiber emitter none,
      .newFiber .nil (some ⟨.nil, .none, []⟩), .resume 0, .step, .back, .resume 0, .step, .step, .step, .back]
      (.host .idle) (.blank {})).any fun (c, m) => ((Deed.resume 2).apply c m).any fun (c₁, m₁) =>
        (Deed.step.apply c₁ m₁).any fun (c', m') => (Deed.back.apply c' m').any fun (c₂, m₂) =>
          ((Deed.resume 1).apply c₂ m₂).any fun (_, m₃) => m.context.fiber = none ∧
            m₁.chain.map Context.fiber = [some 2, none] ∧ m'.context.konts.length = 0 ∧ m.context.konts.length = 0 ∧
            (m₃.fibers[0]?.any fun f => f.state = .dead) ∧ m₃.chain.map Context.fiber = [some 1, none] ∧
            m₃.pool.reused = 2 ∧ (List.range m₃.fibers.size).countP m₃.holds = 1) = true := by
    decide +kernel
  obtain ⟨⟨c₀, m₀⟩, ran, rest⟩ := (Option.any_eq_true _ _).mp ran
  obtain ⟨⟨c₁, m₁⟩, entered, rest⟩ := (Option.any_eq_true _ _).mp rest
  obtain ⟨⟨c', m'⟩, ended, rest⟩ := (Option.any_eq_true _ _).mp rest
  obtain ⟨⟨c₂, m₂⟩, back, rest⟩ := (Option.any_eq_true _ _).mp rest
  obtain ⟨⟨c, m⟩, again, seen⟩ := (Option.any_eq_true _ _).mp rest
  obtain ⟨root, inside, left', left, hdead, hchain, hreused, hheld⟩ := of_decide_eq_true seen
  obtain ⟨r, rfl⟩ := Deed.exists_deliver back
  obtain ⟨f, hf, hd⟩ := (Option.any_eq_true _ _).mp hdead
  have before : Life (.host .idle) (.blank {}) c₀ m₀ := Deed.life .now ran
  have inner : Life c₁ m₁ (.deliver r) m' := .next .now (Deed.lives ended)
  have after : Life (.host .idle) (.blank {}) c m :=
    .next (.next (.next (.next before (Deed.lives entered)) (Deed.lives ended)) (Deed.lives back)) (Deed.lives again)
  have same : m'.context.konts = m₀.context.konts :=
    (List.length_eq_zero_iff.mp left').trans (List.length_eq_zero_iff.mp left).symm
  obtain ⟨dead, live, leave, -, -, -, -, -, count, once, -⟩ := after.lifecycle
  obtain ⟨-, -, -, -, -, -, -, resumed, -⟩ := before.lifecycle
  refine ⟨c, m, after, (dead 0 f hf (of_decide_eq_true hd)).1, live 1 [] (by rw [hchain]; exact List.mem_cons_self),
    (leave 1 (List.cons.inj hchain).1).2.1, hreused, by rw [count, hheld]; rfl, once,
    c₀, m₀, c₁, m₁, r, m', before, root, Deed.resumeFiber_ok entered, inside, inner, ?_⟩
  exact (resumed root 2 [] c₁ m₁ (Deed.resumeFiber_ok entered) r m' inner same).2

end RubyMachine
