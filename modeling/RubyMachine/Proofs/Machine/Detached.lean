import RubyMachine.Machine.Control
import RubyMachine.Proofs.Computation

/-! Computations that have nothing to do with threads. They do the same whatever threads there are, and leave them as
they are. -/

namespace RubyMachine

/-! ## Threads that are changed -/

/-- The same fiber, put aside in another state. -/
def Fiber.mapContext (h : Context → Context) (f : Fiber) : Fiber := { f with context := f.context.map h }

theorem Fiber.getD_mapContext (fibers : Array Fiber) (h : Context → Context) (i : Nat) :
    (fibers.map (mapContext h)).getD i default = (fibers.getD i default).mapContext h := by
  rw [Array.getD_eq_getD_getElem?, Array.getD_eq_getD_getElem?, Array.getElem?_map]
  cases fibers[i]? <;> rfl

/-- The same machine with the running thread changed by `g`, and all others by `h`. -/
def Machine.mapThreads (g h : Context → Context) (m : Machine) : Machine :=
  { m with
    context := g m.context
    waiting := m.waiting.map h
    fibers := m.fibers.map (Fiber.mapContext h) }

/-- What a computation comes to in a machine that is changed afterwards. -/
def mapState {ε σ α : Type} (g : σ → σ) : EStateM.Result ε σ α → EStateM.Result ε σ α
  | .ok a s => .ok a (g s)
  | .error e s => .error e (g s)

namespace Exec

open Machine

variable {α β : Type} {x y : Exec α} {f : α → Exec β} {g h : Context → Context} {m : Machine} {v w : Value}
  {cls : Nat} {name : Ident} {fn : FnId}

/-- Whatever threads there are, the computation comes to the same. -/
def Detached (x : Exec α) : Prop := ∀ g h m, x (m.mapThreads g h) = mapState (mapThreads g h) (x m)

namespace Detached

theorem pure (a : α) : Detached (Pure.pure a) := fun _ _ _ => rfl

theorem throw (d : Defect) : Detached (throw d : Exec α) := fun _ _ _ => rfl

theorem bind (hx : Detached x) (hf : ∀ a, Detached (f a)) : Detached (x >>= f) := by
  intro g h m
  rw [bind_apply, bind_apply, hx g h m]
  cases x m with
  | ok a t => exact hf a g h t
  | error e t => rfl

/-- What is looked at is not on a thread. -/
theorem look {f : Machine → Exec α} (hf : ∀ m, Detached (f m)) (blind : ∀ g h m, f (m.mapThreads g h) = f m) :
    Detached (get >>= f) := by
  intro g h m
  have hg : (get >>= f) (m.mapThreads g h) = f (m.mapThreads g h) (m.mapThreads g h) := rfl
  rw [hg, blind, hf m g h m]
  rfl

theorem modifyGet {f : Machine → α × Machine}
    (blind : ∀ g h m, f (m.mapThreads g h) = ((f m).1, (f m).2.mapThreads g h)) :
    Detached (modifyGet f) := by
  intro g h m
  show EStateM.Result.ok (f (m.mapThreads g h)).1 (f (m.mapThreads g h)).2 = _
  rw [blind]
  rfl

theorem ofExcept (x : Except Defect α) : Detached (Exec.ofExcept x) := by
  cases x with
  | ok a => exact pure a
  | error d => exact throw d

theorem onHeap (x : HeapM Object α) : Detached (onHeap x) := by
  intro g h m
  unfold Exec.onHeap
  dsimp only [Machine.mapThreads]
  cases x m.heap <;> rfl

/-! ## Objects -/

theorem deref (v : Value) : Detached (deref v) := (ofExcept v.asRef).bind fun r => look (fun m => ofExcept (m.heap.read r)) fun _ _ _ => rfl

theorem deref? (v : Value) : Detached (deref? v) := by
  unfold Exec.deref?
  split
  · exact (deref v).bind fun _ => pure _
  · exact pure none

theorem asString? (v : Value) : Detached (asString? v) := by
  refine (deref? v).bind fun o => ?_
  split <;> exact pure _

theorem dictKey (v : Value) : Detached (dictKey v) := by
  refine (asString? v).bind fun r => ?_
  split <;> exact pure _

theorem alloc (o : Object) : Detached (alloc o) := onHeap _

theorem update (v : Value) (f : Object → Object) : Detached (update v f) := onHeap _

theorem dictInsert (d k v : Value) : Detached (dictInsert d k v) := (dictKey k).bind fun _ => update _ _

/-- The text of a value does not tell what its threads do. -/
theorem inspectTo_mapThreads (g h : Context → Context) (m : Machine) (depth : Nat) :
    (m.mapThreads g h).inspectTo depth = m.inspectTo depth := by
  induction depth with
  | zero => rfl
  | succ depth ih =>
    funext v
    have hstate (f : Nat) : ((m.mapThreads g h).fibers.getD f default).state = (m.fibers.getD f default).state :=
      (congrArg Fiber.state (Fiber.getD_mapContext m.fibers h f)).trans rfl
    unfold inspectTo
    simp only [ih, hstate]
    rfl

theorem inspect (v : Value) : Detached (inspect v) :=
  look (fun m => ofExcept (m.inspect v)) fun g h m =>
    congrArg (fun text => (liftM (text (m.heap.pages.size * Heap.pageCells + 2) v) : Exec String))
      (funext (inspectTo_mapThreads g h m))

theorem classOf (v : Value) : Detached (classOf v) := by
  unfold Exec.classOf
  repeat' split
  any_goals exact pure _
  refine look (fun m => (deref v).bind fun o => pure _) fun g h m => ?_
  refine congrArg (Exec.deref v >>= ·) (funext fun o => ?_)
  cases o <;> rfl

theorem className (c : Nat) : Detached (className c) := by
  refine look (fun m => ?_) fun _ _ _ => rfl
  split
  · exact (throw _).bind fun _ => pure _
  · exact pure _

theorem ivarSlot (cls : Nat) (name : Ident) : Detached (ivarSlot cls name) := by
  unfold Exec.ivarSlot
  split
  · exact (throw _).bind fun _ => modifyGet fun _ _ _ => rfl
  · exact modifyGet fun _ _ _ => rfl

theorem setSlotOf (v : Value) (i : Int) (w : Value) : Detached (setSlotOf v i w) := by
  unfold Exec.setSlotOf
  split
  · exact (throw _).bind fun _ => update _ _
  · exact update _ _

theorem getIvar (v : Value) (name : Ident) : Detached (getIvar v name) := by
  refine (deref? v).bind fun o => ?_
  split
  · exact (ivarSlot _ _).bind fun _ => pure _
  · exact look (fun _ => pure _) fun _ _ _ => rfl
  · exact pure _

theorem setIvar (v : Value) (name : Ident) (w : Value) : Detached (setIvar v name w) := by
  refine (deref? v).bind fun o => ?_
  split
  · exact (ivarSlot _ _).bind fun _ => (setSlotOf _ _ _).bind fun _ => pure _
  · exact Detached.bind (x := modify _) (modifyGet fun _ _ _ => rfl) fun _ => pure _
  · exact pure _

/-! ## Classes and functions -/

theorem module (c : Nat) : Detached (module c) := look (fun _ => pure _) fun _ _ _ => rfl

theorem modifyModule (c : Nat) (f : Module → Module) : Detached (modifyModule c f) := modifyGet fun _ _ _ => rfl

theorem bumpVersion : Detached bumpVersion := modifyGet fun _ _ _ => rfl

theorem allocModule (name : Ident) (super : Option Nat) (isModule : Bool) : Detached (allocModule name super isModule) :=
  look (fun _ => (alloc _).bind fun _ => Detached.bind (x := modify _) (modifyGet fun _ _ _ => rfl) fun _ => pure _)
    fun _ _ _ => rfl

theorem setConst (cls : Nat) (name : Ident) (v : Value) : Detached (setConst cls name v) :=
  (modifyModule _ _).bind fun _ => bumpVersion

theorem mixIn (cls mod : Nat) : Detached (mixIn cls mod) := by
  refine (module _).bind fun e => ?_
  split
  · exact pure _
  · exact (modifyModule _ _).bind fun _ => bumpVersion

theorem addFunction (f : Function) : Detached (addFunction f) := modifyGet fun _ _ _ => rfl

theorem defineMethod (cls : Nat) (name : Ident) (fn : FnId) : Detached (defineMethod cls name fn) :=
  (modifyModule _ _).bind fun _ => bumpVersion

theorem setOwner (fn : FnId) (cls : Nat) : Detached (setOwner fn cls) := modifyGet fun _ _ _ => rfl

theorem function (fn : FnId) : Detached (function fn) :=
  look (fun m => ofExcept (m.functions.get fn)) fun _ _ _ => rfl

theorem findMethod? (cls : Nat) (name : Ident) : Detached (findMethod? cls name) :=
  modifyGet fun g h m => by
    dsimp only [mapThreads]
    split <;> rfl

theorem setSite (fn : FnId) (i : Nat) (c : Cache.Inline) : Detached (setSite fn i c) := modifyGet fun _ _ _ => rfl

theorem findMethodAt? (fn : FnId) (i cls : Nat) (name : Ident) : Detached (findMethodAt? fn i cls name) := by
  refine (function fn).bind fun f => ?_
  split
  · exact throw _
  refine look (fun m => (setSite _ _ _).bind fun _ => ?_) fun _ _ _ => rfl
  split
  · exact pure _
  refine (findMethod? _ _).bind fun r => ?_
  split
  · exact (setSite _ _ _).bind fun _ => pure _
  · exact pure _

theorem findConst? (cls : Option Nat) (name : Ident) : Detached (findConst? cls name) :=
  look (fun _ => pure _) fun _ _ _ => rfl

theorem findConstAt? (fn : FnId) (i : Nat) (name : Ident) : Detached (findConstAt? fn i name) := by
  refine (function fn).bind fun f => ?_
  split
  · exact throw _
  refine look (fun m => ?_) fun _ _ _ => rfl
  dsimp only
  split
  · exact pure _
  refine (findConst? _ _).bind fun r => ?_
  split
  · exact Detached.bind (x := modify _) (modifyGet fun _ _ _ => rfl) fun _ => pure _
  · exact pure _

theorem identName (i : Ident) : Detached (identName i) := look (fun _ => pure _) fun _ _ _ => rfl

theorem noMethod (name : Ident) (v : Value) : Detached (noMethod name v) :=
  (identName name).bind fun _ => (inspect v).bind fun _ => pure _

/-! ## Fibers and operators -/

theorem newFiber (body : Value) (iteration : Option Iteration) : Detached (newFiber body iteration) := by
  refine look (fun m => (alloc _).bind fun self => Detached.bind (x := modify _) (modifyGet fun g h m => ?_) fun _ => pure _)
    fun g h m => ?_
  · simp [mapThreads, Fiber.mapContext]
  · simp [mapThreads]

theorem mixedOperation (o : Operator) (v w : Value) : Detached (mixedOperation o v w) := by
  unfold Exec.mixedOperation
  split
  all_goals first
    | exact pure _
    | exact (classOf _).bind fun _ => (className _).bind fun _ => (inspect _).bind fun _ => pure _
    | exact (classOf _).bind fun _ => (className _).bind fun _ => (classOf _).bind fun _ => (className _).bind fun _ => pure _

theorem operation (o : Operator) (v w : Value) : Detached (operation o v w) := by
  unfold Exec.operation
  split
  · exact pure _
  split
  · exact pure _
  split
  · exact mixedOperation o v w
  · split
    · split <;> exact pure _
    · split <;> exact pure _
    · exact pure _
    · exact pure _

end Detached

end Exec

end RubyMachine
