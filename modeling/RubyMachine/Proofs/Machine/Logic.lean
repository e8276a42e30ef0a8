import RubyMachine.Proofs.Ident.Interning
import RubyMachine.Proofs.Machine.Detached
import RubyMachine.Proofs.Machine.Known

/-! What computations of a machine are made of. A judgment of computations that has a rule for each
primitive change, and one for going on after a computation, is a logic; what follows in every logic is
shown once. The rules tell all that the code of a machine can do. -/

namespace RubyMachine

/-! ## What is left to be done -/

/-- The same thread with other continuations. -/
def Context.mapKonts (κ : Option Nat → List Kont → List Kont) (c : Context) : Context :=
  { c with konts := κ c.fiber c.konts }

def Fiber.mapKonts (κ : Option Nat → List Kont → List Kont) (f : Fiber) : Fiber := f.mapContext (Context.mapKonts κ)

/-- The same machine with other continuations on its threads. -/
def Machine.mapKonts (κ : Option Nat → List Kont → List Kont) (m : Machine) : Machine :=
  m.mapThreads (Context.mapKonts κ) (Context.mapKonts κ)

/-- Whether a continuation ends the thread of a fiber. -/
def Kont.isLast : Kont → Bool
  | .fiberBody | .fiberIteration => true
  | _ => false

/-- What is left to be done when a fiber is over. -/
def Fiber.lastKont (f : Fiber) : Kont := if f.iteration.isSome then .fiberIteration else .fiberBody

theorem Fiber.isLast_lastKont (f : Fiber) : f.lastKont.isLast = true := by
  unfold lastKont
  split <;> rfl

/-! ## Changes -/

/-- Whether a defect comes from a reference that leads nowhere, read or marked, or from a thread that is left out of
order. -/
def Defect.isStray : Defect → Bool
  | .outsidePages _ | .freedCell _ | .staleRef .. => true
  | .markOutsidePages _ | .markFree _ | .markStale .. => true
  | .switchOrder => true
  | _ => false

/-- The ways in which an object is changed, dictionaries and instance variables apart. -/
inductive Object.Change : Object → Object → Prop where
  | same (o : Object) : Change o o
  | array (es es' : Array Value) : Change (.array es) (.array es')
  | string (s s' : String) : Change (.string s) (.string s')
  | scope (s s' : Scope) : Change (.scope s) (.scope s')
  | proc (p : Proc) : Change (.proc p) (.proc { p with lambda := true })
  | enumerator (e : Enumerator) (fiber : Value) : Change (.enumerator e) (.enumerator { e with fiber })

/-- Objects that stand for themselves, unlike those of classes and fibers, which are kept in tables. -/
def Object.isPlain : Object → Bool
  | .module _ | .fiber _ => false
  | _ => true

/-- Changes outside of the heap, the classes, the functions and what is remembered of them. -/
structure Machine.Minor (m m' : Machine) : Prop where
  options : m'.options = m.options
  heap : m'.heap = m.heap
  classes : m'.classes = m.classes
  functions : m'.functions = m.functions
  version : m'.version = m.version
  lookups : m'.lookups = m.lookups
  collections : m'.collections = m.collections
  size : m'.fibers.size = m.fibers.size
  self : ∀ i, (m'.fibers.getD i default).self = (m.fibers.getD i default).self
  idents : m.idents.Proper → m'.idents.Proper

/-- A fiber is left as it is, or given up. -/
structure Fiber.Kept (f f' : Fiber) : Prop where
  active : f'.active = f.active
  context : f'.context = f.context ∨ f'.context = none ∧ f'.state = .dead
  dead : f.state = .dead → f'.state = .dead

/-- The object of a fiber is on the heap. -/
def Machine.HasFiber (m : Machine) (id : Nat) : Prop := ∃ p c, (m.heap.cellAt p c).obj = some (.fiber id)

/-- Changes that leave every thread where it is, but for the stack of the one that runs and for fibers that
are given up. -/
structure Machine.Steady (m m' : Machine) : Prop where
  context : ∃ s, m'.context = { m.context with stack := s }
  waiting : m'.waiting = m.waiting
  size : m.fibers.size ≤ m'.fibers.size
  fibers : ∀ i, (m.fibers.getD i default).Kept (m'.fibers.getD i default)
  objects : ∀ id, m'.HasFiber id → m.HasFiber id ∨ id < m'.fibers.size

/-- Changes that leave every thread on its own stack, and all other stacks where they are. -/
structure Machine.Calm (m m' : Machine) : Prop where
  pool : m'.pool = m.pool
  fibers : m'.fibers = m.fibers
  waiting : m'.waiting = m.waiting
  fiber : m'.context.fiber = m.context.fiber
  stack : m'.context.stack.id = m.context.stack.id

/-- Changes that also leave as much room on the stack that is in use, and what is left to be done. -/
structure Machine.Still (m m' : Machine) : Prop extends m.Calm m' where
  capacity : m'.context.stack.capacity = m.context.stack.capacity
  konts : m'.context.konts = m.context.konts

/-- Nothing about threads is changed. -/
theorem Machine.Still.of_eq {m m' : Machine} (hp : m'.pool = m.pool) (hf : m'.fibers = m.fibers)
    (hw : m'.waiting = m.waiting) (hc : m'.context = m.context) : m.Still m' := by
  refine ⟨⟨hp, hf, hw, ?_, ?_⟩, ?_, ?_⟩ <;> rw [hc]

theorem Fiber.Kept.refl (f : Fiber) : f.Kept f := ⟨rfl, .inl rfl, id⟩

/-- Only the stack is changed, and what has nothing to do with threads. -/
theorem Machine.Steady.of_stack {m m' : Machine} (s : Stack) (hc : m'.context = { m.context with stack := s })
    (hw : m'.waiting = m.waiting) (hf : m'.fibers = m.fibers) (hh : m'.heap = m.heap) : m.Steady m' :=
  ⟨⟨s, hc⟩, hw, hf ▸ le_rfl, fun _ => hf ▸ Fiber.Kept.refl _, fun id h => .inl (by
    unfold HasFiber at h
    rwa [hh] at h)⟩

namespace Exec

/-- A new class together with the constant that it is bound to. -/
def enroll (parent : Nat → Nat) (name : Ident) (super : Option Nat) (isModule : Bool) : Exec Nat := do
  let id ← allocModule name super isModule
  setConst (parent id) name (← module id).self
  return id

/-- A new singleton class, tied to its class. -/
def attach (id : Nat) (name : Ident) (super : Nat) : Exec Nat := do
  let single ← allocModule name (some super) false
  modifyModule single fun m => { m with attached := some id }
  modifyModule id fun m => { m with singleton := some single }
  bumpVersion
  return single

/-- What a fiber calls when it is first resumed. -/
def beginFiber (f : Fiber) (args : List Value) : Exec Control :=
  match f.iteration with
  | none => callBlock (some (.proc f.body)) args
  | some i => do
    let emit ← alloc (.proc { body := .emit })
    send i.method i.receiver i.args .nil (some (.proc emit))

/-- A new function that a method is defined by. -/
def addMethod (cls : Nat) (name : Ident) (f : Function) : Exec Unit := do defineMethod cls name (← addFunction f)

theorem startFiber_eq (f : Fiber) (args : List Value) : startFiber f args = (do
    pushKont f.lastKont
    beginFiber f args) := by
  unfold startFiber beginFiber Fiber.lastKont
  cases f.iteration <;> rfl

namespace Detached

theorem enroll (parent : Nat → Nat) (name : Ident) (super : Option Nat) (isModule : Bool) :
    Detached (enroll parent name super isModule) :=
  (allocModule name super isModule).bind fun _ => (module _).bind fun _ => (setConst _ _ _).bind fun _ => pure _

theorem attach (id : Nat) (name : Ident) (super : Nat) : Detached (attach id name super) :=
  (allocModule name (some super) false).bind fun _ => (modifyModule _ _).bind fun _ => (modifyModule _ _).bind fun _ =>
    bumpVersion.bind fun _ => pure _

theorem addMethod (cls : Nat) (name : Ident) (f : Function) : Detached (addMethod cls name f) :=
  (addFunction f).bind fun _ => defineMethod _ _ _

end Detached

end Exec

/-- Says something of a result and that nothing new is known. -/
def Same {α : Type} (K : Known) (P : α → Prop) : Known → α → Prop := fun K' a => K' = K ∧ P a

namespace Known

/-- One change less may be made. -/
def spend (K : Known) : Known := { K with changes := K.changes - 1 }

/-- What is known of the result of a computation that may fail. -/
def outcome {α : Type} (R : Known → α → Prop) (K : Known) : Except Failure α → Prop
  | .ok a => R K a
  | .error f => K.failure f

end Known

open Exec

/-- What every logic has: rules for going on after a computation. -/
structure Basics (Φ : ∀ {α : Type}, Known → Exec α → (Known → α → Prop) → Prop) : Prop where
  pure {α : Type} {K : Known} {R : Known → α → Prop} {a : α} : R K a → Φ K (pure a) R
  bind {α β : Type} {K : Known} {R : Known → α → Prop} {R' : Known → β → Prop} {x : Exec α} {f : α → Exec β} :
    Φ K x R → (∀ K' a, K ≤ K' → R K' a → Φ K' (f a) R') → Φ K (x >>= f) R'
  throw {α : Type} {K : Known} {R : Known → α → Prop} {d : Defect} : d.isStray = false → Φ K (throw d) R

/-- Rules for looking at the machine, but not at what is left to be done on its threads. -/
structure Views (Φ : ∀ {α : Type}, Known → Exec α → (Known → α → Prop) → Prop) : Prop extends Basics Φ where
  look {β : Type} {K : Known} {R : Known → β → Prop} {f : Machine → Exec β} :
    (blind : ∀ κ m, f (m.mapKonts κ) = f m) → (∀ m, K.machine m → Φ K (f m) R) → Φ K (get >>= f) R
  fiber {β : Type} {K : Known} {R : Known → β → Prop} {id : Nat} {f : Fiber → Exec β} : K.fib id →
    (blind : ∀ κ x, f (x.mapKonts κ) = f x) → (∀ x, K.fiber x → Φ K (f x) R) → Φ K (fiber id >>= f) R

/-- A logic of computations that leave every thread where it is. -/
structure Logic (Φ : ∀ {α : Type}, Known → Exec α → (Known → α → Prop) → Prop) : Prop extends Views Φ where
  /-- What is left to be done does not matter to a change. -/
  adjust {α : Type} {K : Known} {P : α → Prop} {f : Machine → α × Machine} :
    (blind : ∀ κ m, f (m.mapKonts κ) = ((f m).1, (f m).2.mapKonts κ)) →
    (∀ m, K.machine m → m.Minor (f m).2 ∧ m.Steady (f m).2 ∧ m.Still (f m).2 ∧ K.machine (f m).2 ∧ P (f m).1) →
    Φ K (modifyGet f) (Same K P)
  -- objects
  deref {K : Known} {v : Value} : K.value v → Φ K (deref v) (Same K (K.object (v.toRef.page, v.toRef.cell)))
  inspect {K : Known} {v : Value} : K.value v → Φ K (inspect v) (Same K fun _ => True)
  alloc {K : Known} {o : Object} : o.isPlain = true → (∀ x, K.object x o) → Φ K (alloc o) Known.value
  update {K : Known} {v : Value} {f : Object → Object} : K.value v →
    (∀ o, K.object (v.toRef.page, v.toRef.cell) o → o.Change (f o) ∧ K.object (v.toRef.page, v.toRef.cell) (f o)) →
    Φ K (update v f) (Same K fun _ => True)
  dictInsert {K : Known} {d k v : Value} : K.value d → K.value k → K.value v →
    Φ K (dictInsert d k v) (Same K fun _ => True)
  getIvar {K : Known} {self : Value} {name : Ident} : K.value self → Φ K (getIvar self name) (Same K K.value)
  setIvar {K : Known} {self v : Value} {name : Ident} : K.value self → K.value v →
    Φ K (setIvar self name v) (Same K fun _ => True)
  -- classes and functions
  enroll {K : Known} {parent : Nat → Nat} {name : Ident} {super : Option Nat} {isModule : Bool} :
    (∀ c, parent c = c ∨ K.cls (parent c)) → (∀ c, super = some c → K.cls c) →
    Φ K (enroll parent name super isModule) fun K' c => K'.cls c ∧ K'.changes = K.changes
  attach {K : Known} {id super : Nat} {name : Ident} : K.cls id → K.cls super →
    Φ K (attach id name super) fun K' c => K'.cls c ∧ K'.changes = K.changes
  mixIn {K : Known} {cls mod : Nat} : 0 < K.changes → K.cls cls → K.cls mod →
    Φ K (mixIn cls mod) fun K' _ => K' = K.spend
  addMethod {K : Known} {cls : Nat} {name : Ident} {f : Function} : K.cls cls → K.function f →
    (∀ seq, f.body ≠ .code seq) → f.sites = #[] → f.constSites = #[] → Φ K (addMethod cls name f) (Same K fun _ => True)
  setConst {K : Known} {cls : Nat} {name : Ident} {v : Value} : 0 < K.changes → K.cls cls → K.value v →
    Φ K (setConst cls name v) fun K' _ => K' = K.spend
  defineMethod {K : Known} {cls : Nat} {name : Ident} {fn : FnId} : 0 < K.changes → K.cls cls →
    Φ K (defineMethod cls name fn) fun K' _ => K' = K.spend
  setOwner {K : Known} {fn : FnId} {cls : Nat} : K.cls cls → Φ K (setOwner fn cls) (Same K fun _ => True)
  findMethod? {K : Known} {cls : Nat} {name : Ident} : Φ K (findMethod? cls name) (Same K fun _ => True)
  findMethodAt? {K : Known} {fn : FnId} {site cls : Nat} {name : Ident} : K.site fn site name →
    Φ K (findMethodAt? fn site cls name) (Same K fun _ => True)
  findConstAt? {K : Known} {fn : FnId} {site : Nat} {name : Ident} : K.constSite fn site name →
    Φ K (findConstAt? fn site name) (Same K (Maybe K.value))
  -- fibers
  newFiber {K : Known} {body : Value} {iteration : Option Iteration} : K.value body →
    Maybe K.iteration iteration → Φ K (newFiber body iteration) Known.value
  releaseFiber {K : Known} {id : Nat} : K.fib id → Φ K (releaseFiber id) (Same K fun _ => True)
  setEnabled {K : Known} {on : Bool} :
    Φ K (onHeap (modify fun h => h.setEnabled on)) (Same K fun _ => True)

/-- A logic also of calls, which come to other frames and to other threads. -/
structure CallLogic (Φ : ∀ {α : Type}, Known → Exec α → (Known → α → Prop) → Prop) : Prop extends Logic Φ where
  change {K : Known} {f : Machine → Machine} :
    (blind : ∀ κ m, f (m.mapKonts κ) = (f m).mapKonts κ) →
    (∀ m, K.machine m → m.Minor (f m) ∧ m.Still (f m) ∧ K.machine (f m)) → Φ K (modify f) (Same K fun _ => True)
  pushKont {K : Known} {k : Kont} : K.kont k → k.isLast = false → Φ K (pushKont k) (Same K fun _ => True)
  /-- A fiber is resumed, given what it calls when it is started, and how what it is resumed with is passed on. -/
  resume {K : Known} {id : Nat} {vs : List Value} : K.fib id → Φ K (pack vs) Known.value →
    (∀ f, K.fiber f → Φ K (beginFiber f vs) Known.control) → Φ K (resumeFiber id vs) Known.control
  suspend {K : Known} {v : Value} : K.value v → Φ K (suspend v) (Same K K.control)

/-- A fiber that is over may be left. -/
abbrev Finishes (Φ : ∀ {α : Type}, Known → Exec α → (Known → α → Prop) → Prop) : Prop :=
  ∀ {K : Known} {r : Except Failure Value}, K.result r → Φ K (finishFiber r) (Same K K.control)

/-- A fiber that runs may be abandoned. -/
abbrev Abandons (Φ : ∀ {α : Type}, Known → Exec α → (Known → α → Prop) → Prop) : Prop :=
  ∀ {K : Known} {id : Nat}, K.fib id → Φ K (abandonRunning id) (Same K K.control)

/-- A logic with a second judgment, of computations in which a collection may come last. -/
structure CollectLogic (Φ Ψ : ∀ {α : Type}, Known → Exec α → (Known → α → Prop) → Prop) : Prop extends CallLogic Φ where
  plain {α : Type} {K : Known} {R : Known → α → Prop} {x : Exec α} : Φ K x R → Ψ K x R
  andThen {α β : Type} {K : Known} {R : Known → α → Prop} {R' : Known → β → Prop} {x : Exec α} {f : α → Exec β} :
    Φ K x R → (∀ K' a, K ≤ K' → R K' a → Ψ K' (f a) R') → Ψ K (x >>= f) R'
  giving {α β : Type} {K : Known} {R : Known → α → Prop} {R' : Known → β → Prop} {x : Exec α} {g : α → β} :
    Ψ K x R → (∀ K' a, K ≤ K' → R K' a → R' K' (g a)) → Ψ K (x >>= fun a => Pure.pure (g a)) R'
  lookThen {β : Type} {K : Known} {R : Known → β → Prop} {f : Machine → Exec β} :
    (blind : ∀ κ m, f (m.mapKonts κ) = f m) → (∀ m, K.machine m → Ψ K (f m) R) → Ψ K (get >>= f) R
  collect {K : Known} : Ψ K collect (Same K fun _ => True)

namespace Logic

variable {Φ : ∀ {α : Type}, Known → Exec α → (Known → α → Prop) → Prop} {α β : Type} {K : Known}

/-- A computation by which nothing new is known. -/
abbrev Keeps (Φ : ∀ {α : Type}, Known → Exec α → (Known → α → Prop) → Prop) (K : Known) (x : Exec α) : Prop :=
  Φ K x (Same K fun _ => True)

/-- A computation that may fail, of which `R` is known when it does not. -/
abbrev Tries (Φ : ∀ {α : Type}, Known → Exec α → (Known → α → Prop) → Prop) (K : Known) (x : Attempt α)
    (R : Known → α → Prop) : Prop :=
  Φ K x.run (Known.outcome R)

/-- A result that needs no machine: what is known of it, or an error that is not about references. -/
def Gives (P : α → Prop) : Except Defect α → Prop
  | .ok a => P a
  | .error d => d.isStray = false

theorem Gives.bind {P : α → Prop} {Q : β → Prop} {x : Except Defect α} {f : α → Except Defect β}
    (hx : Gives P x) (hf : ∀ a, P a → Gives Q (f a)) : Gives Q (x >>= f) := by
  cases x with
  | ok a => exact hf a hx
  | error d => exact hx

theorem Gives.mono {P Q : α → Prop} {x : Except Defect α} (hx : Gives P x) (h : ∀ a, P a → Q a) : Gives Q x := by
  cases x with
  | ok a => exact h a hx
  | error d => exact hx

theorem Gives.and {P Q : α → Prop} {x : Except Defect α} (hp : Gives P x) (hq : Gives Q x) :
    Gives (fun a => P a ∧ Q a) x := by
  cases x with
  | ok a => exact ⟨hp, hq⟩
  | error d => exact hp

theorem gives_ite {P : α → Prop} {p : Prop} [Decidable p] {x y : Except Defect α} (hx : p → Gives P x)
    (hy : ¬p → Gives P y) : Gives P (if p then x else y) := by
  split
  · exact hx ‹_›
  · exact hy ‹_›

end Logic

namespace Basics

open Logic

variable {Φ : ∀ {α : Type}, Known → Exec α → (Known → α → Prop) → Prop} {α β : Type} {K : Known} (L : Basics Φ)

include L

theorem mono {R R' : Known → α → Prop} {x : Exec α} (hx : Φ K x R)
    (h : ∀ K' a, K ≤ K' → R K' a → R' K' a) : Φ K x R' := by
  rw [← bind_pure x]
  exact L.bind hx fun K' a hle ha => L.pure (h K' a hle ha)

/-- Goes on after a computation by which nothing new is known. -/
theorem seq {P : α → Prop} {R : Known → β → Prop} {x : Exec α} {f : α → Exec β} (hx : Φ K x (Same K P))
    (hf : ∀ a, P a → Φ K (f a) R) : Φ K (x >>= f) R := by
  refine L.bind hx fun K' a _ ha => ?_
  obtain ⟨rfl, ha⟩ := ha
  exact hf a ha

theorem same {P Q : α → Prop} {x : Exec α} (hx : Φ K x (Same K P)) (h : ∀ a, P a → Q a) : Φ K x (Same K Q) :=
  L.mono hx fun _ a _ ha => ⟨ha.1, h a ha.2⟩

theorem ofSame {P : α → Prop} {R : Known → α → Prop} {x : Exec α} (hx : Φ K x (Same K P))
    (h : ∀ a, P a → R K a) : Φ K x R := by
  refine L.mono hx fun K' a _ ha => ?_
  obtain ⟨rfl, ha⟩ := ha
  exact h a ha

theorem ret {P : α → Prop} {a : α} (h : P a) : Φ K (Pure.pure a) (Same K P) := L.pure ⟨rfl, h⟩

theorem forget {P : α → Prop} {x : Exec α} (hx : Φ K x (Same K P)) : Keeps Φ K (discard x) :=
  L.seq (f := fun _ => Pure.pure ()) hx fun _ _ => L.ret trivial

theorem lift {P : α → Prop} {x : Except Defect α} (hx : Gives P x) : Φ K (liftM x : Exec α) (Same K P) := by
  cases x with
  | ok a => exact L.ret hx
  | error d => exact L.throw hx

theorem demand {P : α → Prop} {x : Option α} (hx : Maybe P x) : Φ K (demand x) (Same K P) := by
  cases x with
  | some a => exact L.ret hx
  | none => exact L.throw rfl

/-- A check that throws a defect. -/
theorem checkBy {p : Prop} [Decidable p] {R : Known → β → Prop} {d : Defect} {f : Unit → Exec β}
    (hd : Φ K (MonadExcept.throw d : Exec PUnit) fun _ _ => False) (hf : ¬p → Φ K (f ()) R) :
    Φ K (if p then MonadExcept.throw d >>= f else f ()) R := by
  split
  · exact L.bind hd fun _ _ _ h => h.elim
  · exact hf ‹_›

theorem check {p : Prop} [Decidable p] {R : Known → β → Prop} {d : Defect} {f : Unit → Exec β}
    (hd : d.isStray = false) (hf : ¬p → Φ K (f ()) R) :
    Φ K (if p then MonadExcept.throw d >>= f else f ()) R :=
  L.checkBy (L.throw hd) hf

/-! ## Computations that may fail -/

theorem tryPure {R : Known → α → Prop} {a : α} (h : R K a) : Tries Φ K (Pure.pure a) R := L.pure h

theorem tryThrow {R : Known → α → Prop} {f : Failure} (h : K.failure f) : Tries Φ K (MonadExcept.throw f) R :=
  L.pure (a := (.error f : Except Failure α)) h

theorem tryFail {R : Known → α → Prop} (c : Cause) : Tries Φ K (Attempt.fail c) R :=
  L.tryThrow (K.imm .nil (by decide))

theorem tryLift {R : Known → α → Prop} {x : Exec α} (hx : Φ K x R) : Tries Φ K (liftM x : Attempt α) R :=
  L.bind hx fun _ _ _ h => L.pure h

theorem tryBind {R : Known → α → Prop} {R' : Known → β → Prop} {x : Attempt α} {f : α → Attempt β}
    (hx : Tries Φ K x R) (hf : ∀ K' a, K ≤ K' → R K' a → Tries Φ K' (f a) R') : Tries Φ K (x >>= f) R' := by
  refine L.bind hx fun K' r hle hr => ?_
  cases r with
  | ok a => exact hf K' a hle hr
  | error f => exact L.pure hr

theorem tryMono {R R' : Known → α → Prop} {x : Attempt α} (hx : Tries Φ K x R)
    (h : ∀ K' a, K ≤ K' → R K' a → R' K' a) : Tries Φ K x R' := by
  refine L.mono hx fun K' r hle hr => ?_
  cases r with
  | ok a => exact h K' a hle hr
  | error f => exact hr

theorem trySeq {P : α → Prop} {R : Known → β → Prop} {x : Attempt α} {f : α → Attempt β}
    (hx : Tries Φ K x (Same K P)) (hf : ∀ a, P a → Tries Φ K (f a) R) : Tries Φ K (x >>= f) R := by
  refine L.tryBind hx fun K' a _ ha => ?_
  obtain ⟨rfl, ha⟩ := ha
  exact hf a ha

/-- Goes on after a computation that cannot fail. -/
theorem tryGo {P : α → Prop} {R : Known → β → Prop} {x : Exec α} {f : α → Attempt β} (hx : Φ K x (Same K P))
    (hf : ∀ a, P a → Tries Φ K (f a) R) : Tries Φ K (liftM x >>= f) R :=
  L.trySeq (L.tryLift hx) hf

theorem tryNew {R : Known → α → Prop} {R' : Known → β → Prop} {x : Exec α} {f : α → Attempt β} (hx : Φ K x R)
    (hf : ∀ K' a, K ≤ K' → R K' a → Tries Φ K' (f a) R') : Tries Φ K (liftM x >>= f) R' :=
  L.tryBind (L.tryLift hx) hf

/-- What would follow a failure does not matter. -/
theorem tryFailed {R : Known → β → Prop} {f : α → Attempt β} (c : Cause) :
    Tries Φ K (Attempt.fail c >>= f) R :=
  L.tryBind (R := fun _ _ => False) (L.tryFail c) fun _ _ _ h => h.elim

/-- A check that fails. -/
theorem guard {p : Prop} [Decidable p] {R : Known → β → Prop} {c : Cause} {f : Unit → Attempt β}
    (hf : ¬p → Tries Φ K (f ()) R) : Tries Φ K (if p then Attempt.fail c >>= f else f ()) R := by
  split
  · exact L.tryFailed c
  · exact hf ‹_›

/-! ## Lists -/

theorem forM {f : β → Exec PUnit} {l : List β} (h : ∀ b ∈ l, Keeps Φ K (f b)) : Keeps Φ K (l.forM f) := by
  induction l with
  | nil => exact L.ret trivial
  | cons b l ih =>
    refine L.seq (h b (by simp)) fun _ _ => ?_
    exact ih fun b hb => h b (by simp [hb])

/-- A loop in which more and more is known. -/
theorem growM {f : β → Exec PUnit} {l : List β} (h : ∀ K', K ≤ K' → ∀ b ∈ l, Φ K' (f b) fun _ _ => True) :
    Φ K (l.forM f) fun _ _ => True := by
  induction l generalizing K with
  | nil => exact L.pure trivial
  | cons b l ih =>
    refine L.bind (h K le_rfl b (by simp)) fun K' _ hle _ => ?_
    exact ih fun K'' h' b hb => h K'' (hle.trans h') b (by simp [hb])

theorem tryForM {f : β → Attempt PUnit} {l : List β} (h : ∀ b ∈ l, Tries Φ K (f b) (Same K fun _ => True)) :
    Tries Φ K (l.forM f) (Same K fun _ => True) := by
  induction l with
  | nil => exact L.tryPure ⟨rfl, trivial⟩
  | cons b l ih =>
    refine L.trySeq (h b (by simp)) fun _ _ => ?_
    exact ih fun b hb => h b (by simp [hb])

theorem mapM {P : α → Prop} {f : β → Exec α} {l : List β} (h : ∀ b ∈ l, Φ K (f b) (Same K P)) :
    Φ K (l.mapM f) (Same K fun r => ∀ a ∈ r, P a) := by
  induction l with
  | nil => simpa using L.ret (by simp)
  | cons b l ih =>
    rw [List.mapM_cons]
    refine L.seq (h b (by simp)) fun a ha => ?_
    refine L.seq (ih fun b hb => h b (by simp [hb])) fun r hr => L.ret ?_
    intro x hx
    rcases List.mem_cons.mp hx with rfl | hx
    · exact ha
    · exact hr x hx

/-- Who may look at all of a machine may look at parts of it. -/
theorem views (whole : ∀ {K : Known}, Φ K get (Same K K.machine)) : Views Φ :=
  { L with
    look := fun _ h => L.seq whole h
    fiber := fun hi _ h => L.seq (L.seq whole fun _ hm => L.ret (hm.fibers _ hi)) h }

end Basics

namespace Views

open Logic

variable {Φ : ∀ {α : Type}, Known → Exec α → (Known → α → Prop) → Prop} {β : Type} {K : Known} (L : Views Φ)

include L

theorem tryLook {R : Known → β → Prop} {f : Machine → Attempt β} (blind : ∀ κ m, f (m.mapKonts κ) = f m)
    (h : ∀ m, K.machine m → Tries Φ K (f m) R) : Tries Φ K (liftM (get : Exec Machine) >>= f) R := by
  rw [Tries, run_liftM_bind]
  exact L.look (fun κ m => congrArg ExceptT.run (blind κ m)) h

theorem tryFiber {R : Known → β → Prop} {id : Nat} {f : Fiber → Attempt β} (hi : K.fib id)
    (blind : ∀ κ x, f (x.mapKonts κ) = f x) (h : ∀ x, K.fiber x → Tries Φ K (f x) R) :
    Tries Φ K (liftM (Exec.fiber id) >>= f) R := by
  rw [Tries, run_liftM_bind]
  exact L.fiber hi (fun κ x => congrArg ExceptT.run (blind κ x)) h

end Views

namespace CollectLogic

variable {Φ Ψ : ∀ {α : Type}, Known → Exec α → (Known → α → Prop) → Prop} {α β : Type} {K : Known}
  (L : CollectLogic Φ Ψ)

include L

/-- Goes on after a computation by which nothing new is known. -/
theorem seqThen {P : α → Prop} {R : Known → β → Prop} {x : Exec α} {f : α → Exec β} (hx : Φ K x (Same K P))
    (hf : ∀ a, P a → Ψ K (f a) R) : Ψ K (x >>= f) R := by
  refine L.andThen hx fun K' a _ ha => ?_
  obtain ⟨rfl, ha⟩ := ha
  exact hf a ha

theorem safepoint : Ψ K safepoint (Same K fun _ => True) := by
  refine L.lookThen (fun _ _ => rfl) fun m _ => ?_
  dsimp only
  split
  · exact L.giving (g := fun _ => ()) L.collect fun _ _ _ h => ⟨h.1, trivial⟩
  · exact L.plain (L.ret trivial)

end CollectLogic

end RubyMachine
