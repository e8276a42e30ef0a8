import RubyMachine.Proofs.Value.Layout
import RubyMachine.Machine.Step
import Mathlib.Order.Basic

/-! Knowledge: which values, classes, fibers and code may turn up in a machine. All that a machine holds
is known when nothing comes from nowhere: what is known grows while objects are made, and what is
computed from known things is known. -/

namespace RubyMachine

/-- The classes that are named by number and not through a reference. -/
def ClassTable.isFixed (c : Nat) : Prop := c ≤ collector ∨ c = missing

/-- What is known of a thing that may not be there. -/
def Maybe {α : Type} (P : α → Prop) : Option α → Prop
  | some a => P a
  | none => True

section Maybe

variable {α : Type} {P Q : α → Prop}

theorem maybe_all (hp : ∀ a, P a) (x : Option α) : Maybe P x := by
  cases x with
  | none => trivial
  | some a => exact hp a

theorem maybe_true (x : Option α) : Maybe (fun _ => True) x := maybe_all (fun _ => trivial) x

theorem Maybe.getD {x : Option α} {a : α} (hx : Maybe P x) (ha : P a) : P (x.getD a) := by
  cases x with
  | none => exact ha
  | some b => exact hx

theorem Maybe.mono {x : Option α} (hx : Maybe P x) (h : ∀ a, P a → Q a) : Maybe Q x := by
  cases x with
  | none => trivial
  | some a => exact h a hx

end Maybe

structure Known where
  value : Value → Prop
  cls : Nat → Prop
  fib : Nat → Prop
  code : Code.Sequence → Prop
  /-- The names that the caches of a function's call sites are used for. -/
  site : FnId → Nat → Ident → Prop
  /-- The names that the caches of a function's constant references are used for. -/
  constSite : FnId → Nat → Ident → Prop
  /-- How often a definition may still be changed; new ones are not counted. -/
  changes : Nat
  /-- The cells that references of scopes to themselves lead to. -/
  home : Nat × Nat → Value → Prop
  imm : ∀ v : Value, v.isRef = false → value v
  fixed : ∀ c, ClassTable.isFixed c → cls c
  consts : ∀ seq : Code.Sequence, code seq → ∀ v ∈ seq.consts, value v
  home_self : ∀ v : Value, home (v.toRef.page, v.toRef.cell) v

namespace Known

/-! ## Parts of a machine -/

section Parts

variable (K : Known)

def values (vs : List Value) : Prop := ∀ v ∈ vs, K.value v

def block : Block → Prop
  | .proc v => K.value v
  | _ => True

def blockArg (b : Option Block) : Prop := Maybe K.block b

def failure (f : Failure) : Prop := K.value f.value

def result : Except Failure Value → Prop
  | .ok v => K.value v
  | .error f => K.failure f

def activation (a : Activation) : Prop := K.code a.seq

def iteration (i : Iteration) : Prop := K.value i.receiver ∧ K.values i.args

def mode : DriveMode → Prop
  | .map out => K.value out
  | _ => True

structure drive (d : Drive) : Prop where
  fib : K.fib d.fiber
  block : K.block d.block
  mode : K.mode d.mode

def kont : Kont → Prop
  | .activation a _ _ _ => K.activation a
  | .each self b _ => K.value self ∧ K.block b
  | .map self b out _ => K.value self ∧ K.block b ∧ K.value out
  | .times _ _ self b => K.value self ∧ K.block b
  | .loop b => K.block b
  | .construct obj => K.value obj
  | .puts v rest => K.value v ∧ K.values rest
  | .append self v => K.value self ∧ K.value v
  | .equal self other _ _ => K.value self ∧ K.value other
  | .pull d | .feed d => K.drive d
  | .native .. | .drop _ | .boundary | .negate | .fiberBody | .fiberIteration => True

def stack (s : Stack) : Prop := ∀ v ∈ s.slots, K.value v

structure context (c : Context) : Prop where
  stack : K.stack c.stack
  temps : K.values c.temps
  konts : ∀ k ∈ c.konts, K.kont k

structure fiber (f : Fiber) : Prop where
  self : K.value f.self
  body : K.value f.body
  iteration : Maybe K.iteration f.iteration
  lastYield : Maybe K.value f.lastYield
  /-- What is left of a fiber that is not gone back to: its stack is emptied before it is used again. -/
  remains : Maybe (fun c => K.stack c.stack.reset ∧ ∀ k ∈ c.konts, K.kont k) f.context
  context : f.state ≠ .dead → Maybe K.context f.context

structure module (e : Module) : Prop where
  self : K.value e.self
  super : ∀ c, e.super = some c → K.cls c
  includes : ∀ c ∈ e.includes, K.cls c
  singleton : ∀ c, e.singleton = some c → K.cls c
  attached : ∀ c, e.attached = some c → K.cls c
  consts : ∀ x ∈ e.consts, K.value x.2
  ivars : ∀ x ∈ e.ivars, K.value x.2

structure function (f : Function) : Prop where
  code : ∀ seq, f.body = .code seq → K.code seq
  owner : ∀ c, f.owner = some c → K.cls c
  constSites : ∀ c ∈ f.constSites, K.value c.value

/-- A scope in the cell `x` refers to itself by its own reference. -/
structure scope (x : Nat × Nat) (s : Scope) : Prop where
  words : ∀ v ∈ s.words, K.value v
  self : s.self.isRef = true → K.value s.self ∧ K.home x s.self

/-- An object in the cell `x`. -/
def object (x : Nat × Nat) : Object → Prop
  | .instance c slots => K.cls c ∧ ∀ v ∈ slots, K.value v
  | .array elems => ∀ v ∈ elems, K.value v
  | .string _ => True
  | .dict d => ∀ e ∈ d.entries, K.value e.key ∧ K.value e.value
  | .splat v => K.value v
  | .exception f => K.failure f
  | .proc p => K.value p.self ∧ K.value p.outer
  | .scope s => K.scope x s
  | .fiber f => K.fib f
  | .enumerator e => K.iteration e.iteration ∧ K.value e.fiber
  | .module c => K.cls c

def hostCall (h : HostCall) : Prop := K.value h.self ∧ K.values h.args ∧ K.blockArg h.block

def control : Control → Prop
  | .exec a _ => K.activation a
  | .call _ self _ _ kw b => K.value self ∧ K.value kw ∧ K.blockArg b
  | .yield b _ _ => K.block b
  | .deliver r => K.result r
  | .host h => K.hostCall h

/-- Everything that a machine holds outside of its heap and its classes. -/
structure holds (m : Machine) : Prop where
  functions : ∀ f ∈ m.functions.functions, K.function f
  globals : ∀ x ∈ m.globals, K.value x.2
  main : K.value m.mainObject
  context : K.context m.context
  waiting : ∀ c ∈ m.waiting, K.context c
  fibers : ∀ i, K.fib i → K.fiber (m.fibers.getD i default)
  pool : ∀ s ∈ m.pool.free, K.stack s

/-- Everything that a machine holds. -/
structure machine (m : Machine) : Prop extends K.holds m where
  objects : ∀ p c o, (m.heap.cellAt p c).obj = some o → K.object (p, c) o
  classes : ∀ c, K.cls c → K.module (m.classes.entry c)

end Parts

theorem blockArg_none (K : Known) : K.blockArg none := trivial

theorem blockArg_proc {K : Known} {v : Value} (hv : K.value v) : K.blockArg (some (.proc v)) := hv

theorem maybe_iteration {K : Known} {i : Iteration} (hi : K.iteration i) : Maybe K.iteration (some i) := hi

/-! ## More knowledge -/

structure Le (K K' : Known) : Prop where
  value : ∀ {v}, K.value v → K'.value v
  cls : ∀ {c}, K.cls c → K'.cls c
  fib : ∀ {f}, K.fib f → K'.fib f
  code : ∀ {seq}, K.code seq → K'.code seq
  site : K'.site = K.site
  constSite : K'.constSite = K.constSite
  home : K'.home = K.home

instance : Preorder Known where
  le := Le
  le_refl _ := ⟨id, id, id, id, rfl, rfl, rfl⟩
  le_trans _ _ _ h h' :=
    ⟨h'.value ∘ h.value, h'.cls ∘ h.cls, h'.fib ∘ h.fib, h'.code ∘ h.code, h'.site.trans h.site,
      h'.constSite.trans h.constSite, h'.home.trans h.home⟩

variable {K K' : Known}

namespace Le

theorem values (h : K ≤ K') {vs : List Value} (hv : K.values vs) : K'.values vs := fun v hm => h.value (hv v hm)

theorem block (h : K ≤ K') {b : Block} (hb : K.block b) : K'.block b := by
  cases b with
  | proc v => exact h.value hb
  | literal _ _ => trivial
  | symbol _ => trivial

theorem blockArg (h : K ≤ K') {b : Option Block} (hb : K.blockArg b) : K'.blockArg b :=
  hb.mono fun _ => h.block

theorem result (h : K ≤ K') {r : Except Failure Value} (hr : K.result r) : K'.result r := by
  cases r with
  | ok v => exact h.value hr
  | error f => exact h.value hr

theorem iteration (h : K ≤ K') {i : Iteration} (hi : K.iteration i) : K'.iteration i := ⟨h.value hi.1, h.values hi.2⟩

theorem mode (h : K ≤ K') {d : DriveMode} (hd : K.mode d) : K'.mode d := by
  cases d with
  | map out => exact h.value hd
  | each => trivial
  | withIndex _ => trivial

theorem drive (h : K ≤ K') {d : Drive} (hd : K.drive d) : K'.drive d := ⟨h.fib hd.fib, h.block hd.block, h.mode hd.mode⟩

theorem kont (h : K ≤ K') {k : Kont} (hk : K.kont k) : K'.kont k := by
  cases k with
  | activation a _ _ _ => exact h.code hk
  | each => exact ⟨h.value hk.1, h.block hk.2⟩
  | map => exact ⟨h.value hk.1, h.block hk.2.1, h.value hk.2.2⟩
  | times => exact ⟨h.value hk.1, h.block hk.2⟩
  | loop => exact h.block hk
  | construct => exact h.value hk
  | puts => exact ⟨h.value hk.1, h.values hk.2⟩
  | append => exact ⟨h.value hk.1, h.value hk.2⟩
  | equal => exact ⟨h.value hk.1, h.value hk.2⟩
  | pull => exact h.drive hk
  | feed => exact h.drive hk
  | _ => trivial

theorem stack (h : K ≤ K') {s : Stack} (hs : K.stack s) : K'.stack s := fun v hv => h.value (hs v hv)

theorem context (h : K ≤ K') {c : Context} (hc : K.context c) : K'.context c :=
  ⟨h.stack hc.stack, h.values hc.temps, fun k hk => h.kont (hc.konts k hk)⟩

theorem fiber (h : K ≤ K') {f : Fiber} (hf : K.fiber f) : K'.fiber f :=
  ⟨h.value hf.self, h.value hf.body, hf.iteration.mono fun _ => h.iteration,
    hf.lastYield.mono fun _ => h.value,
    hf.remains.mono fun _ hc => ⟨h.stack hc.1, fun k hk => h.kont (hc.2 k hk)⟩, fun hd => (hf.context hd).mono fun _ => h.context⟩

theorem module (h : K ≤ K') {e : Module} (he : K.module e) : K'.module e :=
  ⟨h.value he.self, fun c hc => h.cls (he.super c hc), fun c hc => h.cls (he.includes c hc),
    fun c hc => h.cls (he.singleton c hc), fun c hc => h.cls (he.attached c hc),
    fun x hx => h.value (he.consts x hx), fun x hx => h.value (he.ivars x hx)⟩

theorem function (h : K ≤ K') {f : Function} (hf : K.function f) : K'.function f :=
  ⟨fun seq hs => h.code (hf.code seq hs), fun c hc => h.cls (hf.owner c hc),
    fun c hc => h.value (hf.constSites c hc)⟩

theorem object (h : K ≤ K') {x : Nat × Nat} {o : Object} (ho : K.object x o) : K'.object x o := by
  cases o with
  | «instance» => exact ⟨h.cls ho.1, fun v hv => h.value (ho.2 v hv)⟩
  | array => exact fun v hv => h.value (ho v hv)
  | string => trivial
  | dict => exact fun e he => ⟨h.value (ho e he).1, h.value (ho e he).2⟩
  | splat => exact h.value ho
  | exception => exact h.value ho
  | proc => exact ⟨h.value ho.1, h.value ho.2⟩
  | scope => exact ⟨fun v hv => h.value (ho.words v hv), fun hs => ⟨h.value (ho.self hs).1, by
    rw [h.home]
    exact (ho.self hs).2⟩⟩
  | fiber => exact h.fib ho
  | enumerator => exact ⟨h.iteration ho.1, h.value ho.2⟩
  | module => exact h.cls ho

theorem control (h : K ≤ K') {c : Control} (hc : K.control c) : K'.control c := by
  cases c with
  | exec a _ => exact h.code hc
  | call => exact ⟨h.value hc.1, h.value hc.2.1, h.blockArg hc.2.2⟩
  | yield => exact h.block hc
  | deliver => exact h.result hc
  | host => exact ⟨h.value hc.1, h.values hc.2.1, h.blockArg hc.2.2⟩

/-- What is held is known by those who know more, as long as they know of no new fibers. -/
theorem holds (h : K ≤ K') (hf : ∀ i, K'.fib i → K.fib i) {m : Machine} (hm : K.holds m) : K'.holds m where
  functions f hm' := h.function (hm.functions f hm')
  globals x hx := h.value (hm.globals x hx)
  main := h.value hm.main
  context := h.context hm.context
  waiting c hc := h.context (hm.waiting c hc)
  fibers i hi := h.fiber (hm.fibers i (hf i hi))
  pool s hs := h.stack (hm.pool s hs)

end Le

/-! ## Nothing is told apart -/

/-- Everything is known. -/
structure All (K : Known) : Prop where
  value : ∀ v, K.value v
  cls : ∀ c, K.cls c
  fib : ∀ i, K.fib i
  code : ∀ seq, K.code seq
  home : ∀ x v, K.home x v

namespace All

variable (h : K.All)

include h

theorem block (b : Block) : K.block b := by
  cases b with
  | proc v => exact h.value v
  | _ => trivial

theorem drive (d : Drive) : K.drive d := by
  refine ⟨h.fib _, h.block _, ?_⟩
  cases d.mode with
  | map out => exact h.value out
  | _ => trivial

theorem kont (k : Kont) : K.kont k := by
  cases k with
  | activation a _ _ _ => exact h.code _
  | each => exact ⟨h.value _, h.block _⟩
  | map => exact ⟨h.value _, h.block _, h.value _⟩
  | times => exact ⟨h.value _, h.block _⟩
  | loop => exact h.block _
  | construct => exact h.value _
  | puts => exact ⟨h.value _, fun _ _ => h.value _⟩
  | append => exact ⟨h.value _, h.value _⟩
  | equal => exact ⟨h.value _, h.value _⟩
  | pull => exact h.drive _
  | feed => exact h.drive _
  | _ => trivial

theorem context (c : Context) : K.context c := ⟨fun _ _ => h.value _, fun _ _ => h.value _, fun k _ => h.kont k⟩

theorem iteration (i : Iteration) : K.iteration i := ⟨h.value _, fun _ _ => h.value _⟩

theorem fiber (f : Fiber) : K.fiber f :=
  ⟨h.value _, h.value _, maybe_all h.iteration _, maybe_all h.value _,
    maybe_all (fun _ => ⟨fun _ _ => h.value _, fun k _ => h.kont k⟩) _, fun _ => maybe_all h.context _⟩

theorem module (e : Module) : K.module e :=
  ⟨h.value _, fun c _ => h.cls c, fun c _ => h.cls c, fun c _ => h.cls c, fun c _ => h.cls c, fun _ _ => h.value _,
    fun _ _ => h.value _⟩

theorem function (f : Function) : K.function f := ⟨fun seq _ => h.code seq, fun c _ => h.cls c, fun _ _ => h.value _⟩

theorem object (x : Nat × Nat) (o : Object) : K.object x o := by
  cases o with
  | «instance» => exact ⟨h.cls _, fun _ _ => h.value _⟩
  | array => exact fun _ _ => h.value _
  | string => trivial
  | dict => exact fun _ _ => ⟨h.value _, h.value _⟩
  | splat => exact h.value _
  | exception => exact h.value _
  | proc => exact ⟨h.value _, h.value _⟩
  | scope => exact ⟨fun _ _ => h.value _, fun _ => ⟨h.value _, h.home _ _⟩⟩
  | fiber => exact h.fib _
  | enumerator => exact ⟨h.iteration _, h.value _⟩
  | module => exact h.cls _

theorem machine (m : Machine) : K.machine m where
  objects _ _ _ _ := h.object _ _
  classes _ _ := h.module _
  functions _ _ := h.function _
  globals _ _ := h.value _
  main := h.value _
  context := h.context _
  waiting _ _ := h.context _
  fibers _ _ := h.fiber _
  pool _ _ _ _ := h.value _

theorem control (c : Control) : K.control c := by
  cases c with
  | exec a _ => exact h.code _
  | call => exact ⟨h.value _, h.value _, maybe_all h.block _⟩
  | yield => exact h.block _
  | deliver r => cases r <;> exact h.value _
  | host => exact ⟨h.value _, fun _ _ => h.value _, maybe_all h.block _⟩

end All

end Known

end RubyMachine
