import RubyMachine.Proofs.Machine.Keeping

/-! Computations that do not come to an end because a thread is left out of order. Only those that leave threads can do
so, and all others are placid. -/

namespace RubyMachine

open Exec

/-! ## Primitive computations -/

theorem ne_switchOrder_bind {α β : Type} {x : Except Defect α} {f : α → Except Defect β} (hx : x ≠ .error .switchOrder)
    (hf : ∀ a, f a ≠ .error .switchOrder) : (x >>= f) ≠ .error .switchOrder := by
  cases x with
  | ok a => exact hf a
  | error d => exact fun h => hx (congrArg _ (Except.error.inj h))

theorem ne_switchOrder_mapM {α β : Type} {f : α → Except Defect β} (hf : ∀ a, f a ≠ .error .switchOrder) (l : List α) :
    l.mapM f ≠ .error .switchOrder := by
  induction l with
  | nil => exact fun h => nomatch h
  | cons a l ih =>
    rw [List.mapM_cons]
    exact ne_switchOrder_bind (hf a) fun _ => ne_switchOrder_bind ih fun _ h => nomatch h

/-- The computation does not come to an end because a thread is left out of order. -/
def Placid {σ α : Type} (x : EStateM Defect σ α) : Prop := ∀ s s', x s ≠ .error .switchOrder s'

namespace Placid

variable {σ α β : Type}

theorem pure (a : α) : Placid (Pure.pure a : EStateM Defect σ α) := fun _ _ h => nomatch h

theorem get : Placid (MonadState.get : EStateM Defect σ σ) := fun _ _ h => nomatch h

theorem modifyGet (f : σ → α × σ) : Placid (MonadStateOf.modifyGet f : EStateM Defect σ α) := fun _ _ h => nomatch h

theorem throw {d : Defect} (hd : d ≠ .switchOrder) : Placid (MonadExcept.throw d : EStateM Defect σ α) := fun _ _ h => by
  cases h
  exact hd rfl

theorem bind {x : EStateM Defect σ α} {f : α → EStateM Defect σ β} (hx : Placid x) (hf : ∀ a, Placid (f a)) :
    Placid (x >>= f) := by
  intro s s' h
  rw [bind_apply] at h
  split at h
  · exact hf _ _ _ h
  · cases h
    exact hx _ _ ‹_›

theorem ite {p : Prop} [Decidable p] {x y : EStateM Defect σ α} (hx : Placid x) (hy : Placid y) :
    Placid (if p then x else y) := by
  split <;> assumption

/-- A check that throws another defect. -/
theorem check {p : Prop} [Decidable p] {d : Defect} {f : PUnit → EStateM Defect σ α} (hd : d ≠ .switchOrder)
    (hf : ∀ u, Placid (f u)) : Placid (if p then MonadExcept.throw d >>= f else f ⟨⟩) :=
  ite ((throw hd).bind hf) (hf _)

theorem ofExcept {x : Except Defect α} (hx : x ≠ .error .switchOrder) : Placid (Exec.ofExcept x) := by
  cases x with
  | ok a => exact pure a
  | error d => exact throw fun h => hx (congrArg _ h)

theorem onHeap {x : HeapM Object α} (hx : Placid x) : Placid (Exec.onHeap x) := by
  intro m m' h
  unfold Exec.onHeap at h
  dsimp only at h
  split at h
  · cases h
  · cases h
    exact hx _ _ ‹_›

/-! ### The heap -/

theorem bumpPage : Placid (Heap.bumpPage : HeapM α Nat) := by
  have next : Placid (Heap.bumpPage.next : HeapM α Nat) := by
    refine get.bind fun h => ?_
    split
    · exact (modifyGet _).bind fun _ => pure _
    · exact check (fun h => nomatch h) fun _ => (modifyGet _).bind fun _ => pure _
  refine get.bind fun h => ?_
  split
  · exact ite (pure _) next
  · exact next

theorem takeFree : Placid (Heap.takeFree : HeapM α (Nat × Nat)) :=
  get.bind fun _ => check (fun h => nomatch h) fun _ => check (fun h => nomatch h) fun _ => (modifyGet _).bind fun _ => pure _

theorem takeFresh : Placid (Heap.takeFresh : HeapM α (Nat × Nat)) :=
  bumpPage.bind fun _ => get.bind fun _ => (modifyGet _).bind fun _ => pure _

theorem heapAlloc (o : α) : Placid (Heap.alloc o) := by
  refine (modifyGet _).bind fun _ => get.bind fun h => ?_
  extract_lets fill
  have filled (cell : Nat × Nat) : Placid (fill cell) := get.bind fun _ => (modifyGet _).bind fun _ => pure _
  exact ite (takeFree.bind filled) (takeFresh.bind filled)

theorem read_ne (h : Heap α) (r : Ref) : h.read r ≠ .error .switchOrder := by
  unfold Heap.read
  split
  · exact fun he => nomatch he
  · dsimp only
    split
    · split <;> exact fun he => nomatch he
    · exact fun he => nomatch he

theorem visit (r : Ref) : Placid (Heap.visit r : HeapM α (Option α)) := by
  refine get.bind fun h => check (fun h => nomatch h) fun _ => ?_
  dsimp only
  split
  · refine check (fun h => nomatch h) fun _ => check (fun h => nomatch h) fun _ => ?_
    split
    · exact (modifyGet _).bind fun _ => pure _
    · exact pure _
  · split
    · exact (modifyGet _).bind fun _ => pure _
    · exact pure _

theorem markAll (refs : α → List Value) (fuel : Nat) (vs : List Value) : Placid (Heap.markAll refs fuel vs) := by
  induction fuel, vs using Heap.markAll.induct refs with
  | case1 fuel => exact Heap.markAll.eq_1 refs fuel ▸ pure _
  | case2 vs hvs =>
    unfold Heap.markAll
    split
    · exact pure _
    · exact pure _
    · rename_i h
      cases h
  | case3 fuel v rest hv marked skipped =>
    rw [Heap.markAll, if_pos hv]
    refine (visit v.toRef).bind fun o => ?_
    cases o with
    | some o => exact marked o
    | none => exact skipped
  | case4 fuel v rest hv ih =>
    rw [Heap.markAll, if_neg hv]
    exact ih

theorem markValues (refs : α → List Value) (vs : List Value) : Placid (Heap.markValues refs vs) :=
  get.bind fun _ => markAll refs _ vs

theorem sweepCells (page : Nat) (cells : List Nat) : Placid (Heap.sweepCells page cells : HeapM α (List α)) := by
  induction cells with
  | nil => exact pure _
  | cons cell rest ih =>
    refine get.bind fun h => ?_
    dsimp only
    split
    · exact check (fun h => nomatch h) fun _ => ih
    · refine ite ih ((modifyGet _).bind fun _ => ih.bind fun _ => pure _)

theorem sweepPages (n kept : Nat) : Placid (Heap.sweepPages n kept : HeapM α (List α)) := by
  induction n generalizing kept with
  | zero => exact pure _
  | succ page ih =>
    refine get.bind fun h => ite (ih _) ((sweepCells page _).bind fun freed => get.bind fun h => ?_)
    exact ite ((modifyGet _).bind fun _ => (ih _).bind fun _ => pure _) ((modifyGet _).bind fun _ => (ih _).bind fun _ => pure _)

theorem sweep : Placid (Heap.sweep : HeapM α (List α)) :=
  (modifyGet _).bind fun _ => get.bind fun _ => (sweepPages _ _).bind fun _ => (modifyGet _).bind fun _ => pure _

/-! ### Objects -/

theorem deref (v : Value) : Placid (Exec.deref v) := by
  refine (ofExcept ?_).bind fun r => get.bind fun m => ofExcept (read_ne _ r)
  unfold Value.asRef
  split <;> exact fun h => nomatch h

theorem deref? (v : Value) : Placid (Exec.deref? v) :=
  ite ((deref v).bind fun _ => pure _) (pure _)

theorem inspectTo_ne (m : Machine) (depth : Nat) (v : Value) : m.inspectTo depth v ≠ .error .switchOrder := by
  induction depth generalizing v with
  | zero => exact fun h => nomatch h
  | succ depth ih =>
    unfold Machine.inspectTo
    split_ifs
    any_goals rintro ⟨⟩
    refine ne_switchOrder_bind (read_ne _ _) fun o => ?_
    split
    any_goals rintro ⟨⟩
    · exact ne_switchOrder_bind (ne_switchOrder_mapM ih _) fun _ h => nomatch h
    · refine ne_switchOrder_bind (ne_switchOrder_mapM (fun e => ?_) _) fun _ h => nomatch h
      exact ne_switchOrder_bind (ih e.1) fun _ => ne_switchOrder_bind (ih e.2) fun _ h => nomatch h
    · exact ne_switchOrder_bind (ih _) fun _ => ne_switchOrder_bind (ne_switchOrder_mapM ih _) fun _ h => nomatch h
    · dsimp only
      split <;> rintro ⟨⟩

theorem inspect (v : Value) : Placid (Exec.inspect v) := get.bind fun m => ofExcept (inspectTo_ne m _ v)

theorem alloc (o : Object) : Placid (Exec.alloc o) := onHeap (heapAlloc o)

theorem update (v : Value) (f : Object → Object) : Placid (Exec.update v f) := onHeap (modifyGet _)

theorem dictInsert (d k v : Value) : Placid (Exec.dictInsert d k v) := by
  refine bind (bind (bind (deref? k) fun o => ?_) fun r => ?_) fun _ => update _ _
  · split <;> exact pure _
  · split <;> exact pure _

theorem ivarSlot (c : Nat) (name : Ident) : Placid (Exec.ivarSlot c name) := by
  unfold Exec.ivarSlot
  exact check (fun h => nomatch h) fun _ => modifyGet _

theorem setSlotOf (v : Value) (i : Int) (w : Value) : Placid (Exec.setSlotOf v i w) := by
  unfold Exec.setSlotOf
  exact check (fun h => nomatch h) fun _ => update _ _

theorem getIvar (v : Value) (name : Ident) : Placid (Exec.getIvar v name) := by
  refine (deref? v).bind fun o => ?_
  split
  · exact (ivarSlot _ _).bind fun _ => pure _
  · exact get.bind fun _ => pure _
  · exact pure _

theorem setIvar (v : Value) (name : Ident) (w : Value) : Placid (Exec.setIvar v name w) := by
  refine (deref? v).bind fun o => ?_
  split
  · exact (ivarSlot _ _).bind fun _ => (setSlotOf _ _ _).bind fun _ => pure _
  · exact (modifyGet _).bind fun _ => pure _
  · exact pure _

/-! ### Classes, functions and fibers -/

theorem module (c : Nat) : Placid (Exec.module c) := get.bind fun _ => pure _

theorem allocModule (name : Ident) (super : Option Nat) (isModule : Bool) : Placid (Exec.allocModule name super isModule) :=
  get.bind fun _ => (alloc _).bind fun _ => (modifyGet _).bind fun _ => pure _

/-- A module is changed, and the version with it. -/
theorem setConst (cls : Nat) (name : Ident) (v : Value) : Placid (Exec.setConst cls name v) :=
  (modifyGet _).bind fun _ => modifyGet _

theorem mixIn (cls mod : Nat) : Placid (Exec.mixIn cls mod) :=
  (module _).bind fun _ => ite (pure _) ((modifyGet _).bind fun _ => modifyGet _)

theorem defineMethod (cls : Nat) (name : Ident) (fn : FnId) : Placid (Exec.defineMethod cls name fn) :=
  (modifyGet _).bind fun _ => modifyGet _

theorem function (fn : FnId) : Placid (Exec.function fn) := by
  refine get.bind fun m => ofExcept ?_
  unfold FunctionTable.get
  split <;> exact fun h => nomatch h

theorem findMethod? (cls : Nat) (name : Ident) : Placid (Exec.findMethod? cls name) := modifyGet _

theorem findMethodAt? (fn : FnId) (i cls : Nat) (name : Ident) : Placid (Exec.findMethodAt? fn i cls name) := by
  refine (function fn).bind fun f => ?_
  split
  · exact throw fun h => nomatch h
  refine get.bind fun m => (modifyGet _).bind fun _ => ?_
  split
  · exact pure _
  refine (findMethod? _ _).bind fun r => ?_
  split
  · exact (modifyGet _).bind fun _ => pure _
  · exact pure _

theorem findConstAt? (fn : FnId) (i : Nat) (name : Ident) : Placid (Exec.findConstAt? fn i name) := by
  refine (function fn).bind fun f => ?_
  split
  · exact throw fun h => nomatch h
  refine get.bind fun m => ?_
  dsimp only
  split
  · exact pure _
  refine bind (get.bind fun _ => pure _) fun r => ?_
  split
  · exact (modifyGet _).bind fun _ => pure _
  · exact pure _

theorem newFiber (body : Value) (iteration : Option Iteration) : Placid (Exec.newFiber body iteration) :=
  get.bind fun _ => (alloc _).bind fun _ => (modifyGet _).bind fun _ => pure _

theorem dispose (fuel : Nat) (ds : List Disposal) : Placid (Exec.dispose fuel ds) := by
  induction fuel generalizing ds with
  | zero => exact pure _
  | succ fuel ih =>
    cases ds with
    | nil => exact pure _
    | cons d rest =>
      cases d with
      | stack s => exact (modifyGet _).bind fun _ => ih _
      | fiber id =>
        refine bind (get.bind fun _ => pure _) fun f => (modifyGet _).bind fun _ => ?_
        split <;> exact ih _

theorem releaseFiber (id : Nat) : Placid (Exec.releaseFiber id) := bind (get.bind fun _ => pure _) fun _ => dispose _ _

end Placid

/-! ## Computations that keep a property and are placid where it holds -/

/-- A property is kept by a computation, and where it holds no thread is left out of order. -/
def Heeding (P : Machine → Prop) {α : Type} (K : Known) (x : Exec α) (R : Known → α → Prop) : Prop :=
  Keeping P K x R ∧ (K.All → ∀ m, P m → ∀ m', x m ≠ .error .switchOrder m')

namespace Heeding

open Keeping

variable {P : Machine → Prop} {α β : Type} {K : Known} {R : Known → α → Prop}

theorem of_placid {x : Exec α} (hx : Keeping P K x R) (h : Placid x) : Heeding P K x R := ⟨hx, fun _ m _ => h m⟩

theorem pure {a : α} (h : R K a) : Heeding P K (Pure.pure a) R := of_placid (Keeping.pure h) (.pure a)

theorem bind {R' : Known → β → Prop} {x : Exec α} {f : α → Exec β} (hx : Heeding P K x R)
    (hf : ∀ K' a, K ≤ K' → R K' a → Heeding P K' (f a) R') : Heeding P K (x >>= f) R' := by
  refine ⟨Keeping.bind hx.1 fun K' a hle ha => (hf K' a hle ha).1, fun hK m hm m' h => ?_⟩
  rw [bind_apply] at h
  split at h
  · rename_i a m₁ hxm
    obtain ⟨K', hle, hK', hm₁, hR⟩ := hx.1 hK m hm
    rw [after_of_ok hxm] at hm₁
    exact (hf K' a hle (hR a m₁ hxm)).2 hK' m₁ hm₁ m' h
  · rename_i hxm
    cases h
    exact hx.2 hK m hm _ hxm

/-- A computation that comes to its end wherever the property holds. -/
theorem of_ok {Q : α → Prop} {x : Exec α} (hx : ∀ m, P m → ∃ a m', x m = .ok a m' ∧ P m') (hQ : K.All → ∀ a, Q a) :
    Heeding P K x (Same K Q) := by
  refine ⟨Keeping.of_kept (fun m hm => ?_) fun hK _ a _ _ => ⟨rfl, hQ hK a⟩, fun _ m hm m' h => ?_⟩
  · obtain ⟨a, m', he, hm'⟩ := hx m hm
    exact after_of_ok he ▸ hm'
  · obtain ⟨a, m', he, -⟩ := hx m hm
    cases he.symm.trans h

/-- Wherever the property holds, the computation is like some other from some other machine on. -/
theorem of_eq {x : Exec α}
    (hx : K.All → ∀ m, P m → ∃ (y : Exec α) (m' : Machine), x m = y m' ∧ P m' ∧ Heeding P K y R) : Heeding P K x R := by
  refine ⟨fun hK m hm => ?_, fun hK m hm m' h => ?_⟩
  · obtain ⟨y, m', he, hm', hy⟩ := hx hK m hm
    rw [after, he]
    exact hy.1 hK m' hm'
  · obtain ⟨y, m', he, hm', hy⟩ := hx hK m hm
    exact hy.2 hK m' hm' _ (he.symm.trans h)

theorem basics (P : Machine → Prop) : Basics (Heeding P) where
  pure := pure
  bind := bind
  throw h := of_placid ((Keeping.basics P).throw h) (.throw fun he => by
    rw [he] at h
    cases h)

theorem whole : Heeding P K get (Same K K.machine) := of_placid Keeping.whole .get

theorem logic (hP : Stable P) : Logic (Heeding P) where
  toViews := (basics P).views whole
  adjust blind hf := of_placid (hP.logic.adjust blind hf) (.modifyGet _)
  deref h := of_placid (hP.logic.deref h) (.deref _)
  inspect h := of_placid (hP.logic.inspect h) (.inspect _)
  alloc h h' := of_placid (hP.logic.alloc h h') (.alloc _)
  update h h' := of_placid (hP.logic.update h h') (.update _ _)
  dictInsert h h' h'' := of_placid (hP.logic.dictInsert h h' h'') (.dictInsert _ _ _)
  getIvar h := of_placid (hP.logic.getIvar h) (.getIvar _ _)
  setIvar h h' := of_placid (hP.logic.setIvar h h') (.setIvar _ _ _)
  enroll h h' := of_placid (hP.logic.enroll h h') ((Placid.allocModule _ _ _).bind fun _ => (Placid.module _).bind fun _ =>
    (Placid.setConst _ _ _).bind fun _ => .pure _)
  attach h h' := of_placid (hP.logic.attach h h') ((Placid.allocModule _ _ _).bind fun _ => (Placid.modifyGet _).bind fun _ =>
    (Placid.modifyGet _).bind fun _ => (Placid.modifyGet _).bind fun _ => .pure _)
  mixIn h h' h'' := of_placid (hP.logic.mixIn h h' h'') (.mixIn _ _)
  addMethod h h' hb hs hc := of_placid (hP.logic.addMethod h h' hb hs hc) ((Placid.modifyGet _).bind fun _ => .defineMethod _ _ _)
  setConst h h' h'' := of_placid (hP.logic.setConst h h' h'') (.setConst _ _ _)
  defineMethod h h' := of_placid (hP.logic.defineMethod h h') (.defineMethod _ _ _)
  setOwner h := of_placid (hP.logic.setOwner h) (.modifyGet _)
  findMethod? := of_placid hP.logic.findMethod? (.findMethod? _ _)
  findMethodAt? h := of_placid (hP.logic.findMethodAt? h) (.findMethodAt? _ _ _ _)
  findConstAt? h := of_placid (hP.logic.findConstAt? h) (.findConstAt? _ _ _)
  newFiber h h' := of_placid (hP.logic.newFiber h h') (.newFiber _ _)
  releaseFiber h := of_placid (hP.logic.releaseFiber h) (.releaseFiber _)
  setEnabled := of_placid hP.logic.setEnabled (.onHeap (.modifyGet _))

end Heeding

end RubyMachine
