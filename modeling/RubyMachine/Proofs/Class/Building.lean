import RubyMachine.Proofs.Arguments.Pictures
import RubyMachine.Proofs.Class.Slots
import RubyMachine.Proofs.Machine.Keeping

/-! Building classes with several arguments at once. Mixing in modules and defining attributes take the arguments one by
one. At the first that will not do they fail, and what those before it did to the class stays. -/

namespace RubyMachine

open Exec Keeping

variable {m m' m₀ : Machine} {b : Builtin} {self v kw : Value} {args : List Value} {blk : Option Block} {e : Failure}
  {cls : Nat}

/-! ## Computations that fail -/

namespace Attempt

variable {α β : Type} {x : Attempt α} {y : Exec α} {f : α → Attempt β} {g : β → Attempt PUnit} {r : Except Failure β}

/-- After a look at the machine the rest is done by the same machine. -/
theorem exists_of_look (hy : Kept (· = m) y) (h : (liftM y >>= f : Attempt β).run m = .ok r m') :
    ∃ a, y m = .ok a m ∧ (f a).run m = .ok r m' := by
  obtain ⟨a, m₁, hrun, hrest⟩ := exists_of_bind ((congrFun (run_liftM_bind y f) m).symm.trans h)
  have hsame := hy m rfl
  rw [after_of_ok hrun] at hsame
  rw [hsame] at hrun hrest
  exact ⟨a, hrun, hrest⟩

theorem eq_ok_of_lift {y : Exec β} (h : (liftM y : Attempt β).run m = .ok r m') :
    ∃ a, r = .ok a ∧ y m = .ok a m' := by
  rw [ExceptT.run_liftM] at h
  obtain ⟨a, m₁, hrun, h⟩ := exists_of_bind h
  cases h
  exact ⟨a, rfl, hrun⟩

/-- A loop that fails does so at the first element that fails, after those before it. -/
theorem forM_eq_error {l : List β} (h : (l.forM g).run m = .ok (.error e) m') : ∃ good bad rest m₁,
    l = good ++ bad :: rest ∧ (good.forM g).run m = .ok (.ok ⟨⟩) m₁ ∧ (g bad).run m₁ = .ok (.error e) m' := by
  rw [List.forM_eq_forM] at h
  induction l generalizing m with
  | nil => cases h
  | cons a l ih =>
    rw [List.forM_cons, ExceptT.run_bind] at h
    obtain ⟨r, m₁, ha, h⟩ := exists_of_bind h
    cases r with
    | error e' =>
      cases h
      exact ⟨[], a, l, m, rfl, rfl, ha⟩
    | ok u =>
      obtain ⟨good, bad, rest, m₂, rfl, hgood, hbad⟩ := ih h
      refine ⟨a :: good, bad, rest, m₂, rfl, ?_, hbad⟩
      rw [List.forM_eq_forM, List.forM_cons]
      exact (run_bind_ok ha).trans hgood

end Attempt

/-! ## One argument -/

namespace Builtin

/-- The builtins that add to a class. -/
inductive Builds : Builtin → Prop
  | mixIn : Builds .mixIn
  | attributes (reader writer : Bool) : Builds (.attributes reader writer)

/-- What they do with one argument. -/
def build (b : Builtin) (self v : Value) : Attempt PUnit :=
  match b with
  | .attributes reader writer => do
    let name ← identName (← symbolArg v)
    defineAttr (← moduleOf self) name reader writer
  | _ => do
    match ← asModule? v with
    | some k =>
      if (← module k).isModule then Exec.mixIn (← moduleOf self) k
      else Attempt.fail (.expectedModule (← className (← Exec.classOf v)))
    | none => Attempt.fail (.expectedModule (← className (← Exec.classOf v)))

/-- What they give in the end. -/
def built (b : Builtin) (self : Value) : Value :=
  match b with
  | .attributes .. => .nil
  | _ => self

theorem Builds.run_eq (hb : b.Builds) (self : Value) (args : List Value) (blk : Option Block) :
    b.run self args blk = (do
      args.forM (b.build self)
      return .value (b.built self)) := by
  cases hb <;> rfl

end Builtin

/-! ## Additions -/

namespace Machine

/-- Something is added to the class `v`: to the modules mixed in, while methods and functions stay, or to the methods,
while the modules stay. Nothing else about classes is changed. -/
structure Adds (b : Builtin) (v : Value) (m m' : Machine) : Prop where
  heap : m'.heap = m.heap
  size : m'.classes.size = m.classes.size
  super : ∀ c, (m'.classes.entry c).super = (m.classes.entry c).super
  others : ∀ c, m.heap.read v.toRef ≠ .ok (.module c) → m'.classes.entry c = m.classes.entry c
  functions : b = .mixIn → m'.functions = m.functions
  methods : b = .mixIn → ∀ c, (m'.classes.entry c).methods = (m.classes.entry c).methods
  includes : b ≠ .mixIn → ∀ c, (m'.classes.entry c).includes = (m.classes.entry c).includes

namespace Adds

theorem of_eq (hh : m'.heap = m.heap) (hc : m'.classes = m.classes) (hf : b = .mixIn → m'.functions = m.functions) :
    m.Adds b self m' := by
  refine ⟨hh, ?_, fun c => ?_, fun c _ => ?_, hf, fun _ c => ?_, fun _ c => ?_⟩ <;> rw [hc]

theorem refl (m : Machine) : m.Adds b self m := .of_eq rfl rfl fun _ => rfl

theorem trans {m'' : Machine} (h : m.Adds b self m') (h' : m'.Adds b self m'') : m.Adds b self m'' where
  heap := h'.heap.trans h.heap
  size := h'.size.trans h.size
  super c := (h'.super c).trans (h.super c)
  others c hc := (h'.others c (by rwa [h.heap])).trans (h.others c hc)
  functions hb := (h'.functions hb).trans (h.functions hb)
  methods hb c := (h'.methods hb c).trans (h.methods hb c)
  includes hb c := (h'.includes hb c).trans (h.includes hb c)

theorem modify {f : Module → Module} {version : UInt64} (hr : m.heap.read self.toRef = .ok (.module cls))
    (hs : ∀ e, (f e).super = e.super) (hm : b = .mixIn → ∀ e, (f e).methods = e.methods)
    (hi : b ≠ .mixIn → ∀ e, (f e).includes = e.includes) :
    m.Adds b self { m with classes := m.classes.modify cls f, version } where
  heap := rfl
  size := ClassTable.size_modify ..
  super c := by rcases ClassTable.entry_modify m.classes cls c f with h | h <;> simp only [h, hs]
  others c hc := by
    refine ClassTable.entry_modify_of_ne m.classes ?_ f
    rintro rfl
    exact hc hr
  functions _ := rfl
  methods hb c := by rcases ClassTable.entry_modify m.classes cls c f with h | h <;> simp only [h, hm hb]
  includes hb c := by rcases ClassTable.entry_modify m.classes cls c f with h | h <;> simp only [h, hi hb]

theorem ancestors (h : m.Adds b self m') (hb : b ≠ .mixIn) (c : Nat) :
    m'.classes.ancestors c = m.classes.ancestors c := by
  rw [ClassTable.ancestors, ClassTable.ancestors, ClassTable.chain_congr h.size h.super]
  simp only [h.includes hb]

end Adds

end Machine

/-! ## One argument after the other -/

theorem kept_asModule? {P : Machine → Prop} (v : Value) : Kept P (asModule? v) := by
  refine (kept_deref? v).bind fun o => ?_
  split <;> exact kept_pure _

theorem kept_moduleOf {P : Machine → Prop} (v : Value) : Kept P (moduleOf v) :=
  (kept_asModule? v).bind fun _ => kept_demand _

theorem kept_className {P : Machine → Prop} (c : Nat) : Kept P (className c) := by
  refine kept_get.bind fun m => ?_
  split
  · exact (kept_throw _).bind fun _ => kept_pure _
  · exact kept_pure _

theorem read_of_moduleOf (h : moduleOf self m = .ok cls m') : m.heap.read self.toRef = .ok (.module cls) := by
  obtain ⟨k, m₁, hk, h⟩ := exists_of_bind h
  obtain ⟨o, m₂, ho, hk⟩ := exists_of_bind hk
  cases hv : self.isRef with
  | false =>
    rw [deref?, hv] at ho
    cases ho
    cases hk
    cases h
  | true =>
    cases hr : m.heap.read self.toRef with
    | error d =>
      rw [deref?, if_pos hv, bind_of_error (deref_error hv hr)] at ho
      cases ho
    | ok o' =>
      cases (deref?_of_read hv hr).symm.trans ho
      cases o' with
      | module c =>
        cases hk
        cases h
        rfl
      | _ =>
        cases hk
        cases h

theorem symbolArg_cases {r : Except Failure Ident} (h : (symbolArg v).run m = .ok r m') :
    m' = m ∧ ((∃ i, r = .ok i) ∨ ∃ s, r = .error (.of (.notSymbol s))) := by
  unfold symbolArg at h
  split at h
  · cases h
    exact ⟨rfl, .inl ⟨_, rfl⟩⟩
  · obtain ⟨s, -, h⟩ := Attempt.exists_of_look (kept_inspect v) h
    cases h
    exact ⟨rfl, .inr ⟨s, rfl⟩⟩

theorem adds_mixIn (hr : m.heap.read self.toRef = .ok (.module cls)) (k : Nat) :
    m.Adds .mixIn self (after (Exec.mixIn cls k) m) := by
  by_cases hk : (m.classes.entry cls).includes.contains k
  · have hrun : Exec.mixIn cls k m = .ok () m := by
      simp only [Exec.mixIn, Exec.module, bind_apply, get_apply, pure_apply, ite_apply', if_pos hk]
    rw [after_of_ok hrun]
    exact .refl m
  · have hrun : Exec.mixIn cls k m = .ok () { m with
        classes := m.classes.modify cls fun e => { e with includes := e.includes ++ [k] }, version := m.version + 1 } := by
      simp only [Exec.mixIn, Exec.module, bind_apply, get_apply, pure_apply, ite_apply', if_neg hk]
      rfl
    rw [after_of_ok hrun]
    exact .modify hr (fun _ => rfl) (fun _ _ => rfl) fun hb => absurd rfl hb

section Attributes

variable (hb : b ≠ .mixIn)

theorem kept_intern (name : String) : Kept (m.Adds b self) (intern name) :=
  fun _ h => h.trans (.of_eq rfl rfl fun _ => rfl)

include hb

theorem kept_addFunction (f : Function) : Kept (m.Adds b self) (addFunction f) :=
  fun _ h => h.trans (.of_eq rfl rfl fun hm => absurd hm hb)

theorem kept_defineMethod (hr : m.heap.read self.toRef = .ok (.module cls)) (name : Ident) (fn : FnId) :
    Kept (m.Adds b self) (defineMethod cls name fn) :=
  fun _ h => h.trans (.modify (h.heap ▸ hr) (fun _ => rfl) (fun hm => absurd hm hb) fun _ _ => rfl)

theorem kept_defineAttr (hr : m.heap.read self.toRef = .ok (.module cls)) (name : String) (reader writer : Bool) :
    Kept (m.Adds b self) (defineAttr cls name reader writer) := by
  refine (kept_intern _).bind fun ivar => ?_
  extract_lets write
  have written (u : PUnit) : Kept (m.Adds b self) (write u) := by
    unfold write
    split
    · exact (kept_intern _).bind fun _ => (kept_addFunction hb _).bind fun _ => kept_defineMethod hb hr _ _
    · exact kept_pure _
  split
  · exact (kept_intern _).bind fun _ => (kept_addFunction hb _).bind fun _ => (kept_defineMethod hb hr _ _).bind written
  · exact written ⟨⟩

end Attributes

namespace Builtin.Builds

/-- An argument is refused, which changes nothing, or it changes the class as far as the builtin may. -/
theorem build_cases (hb : b.Builds) {r : Except Failure PUnit} (h : (b.build self v).run m = .ok r m') :
    (∃ e, r = .error e) ∧ m' = m ∨ r = .ok ⟨⟩ ∧ m.Adds b self m' := by
  have refused (h : (do Attempt.fail (.expectedModule (← className (← Exec.classOf v))) : Attempt PUnit).run m =
      .ok r m') : (∃ e, r = .error e) ∧ m' = m := by
    obtain ⟨c, -, h⟩ := Attempt.exists_of_look (kept_classOf v) h
    obtain ⟨s, -, h⟩ := Attempt.exists_of_look (kept_className c) h
    cases h
    exact ⟨⟨_, rfl⟩, rfl⟩
  cases hb with
  | mixIn =>
    obtain ⟨o, -, h⟩ := Attempt.exists_of_look (kept_asModule? v) h
    cases o with
    | none => exact .inl (refused h)
    | some k =>
      obtain ⟨e', -, h⟩ := Attempt.exists_of_look (kept_get.bind fun _ => kept_pure _) h
      split at h
      · obtain ⟨c, hc, h⟩ := Attempt.exists_of_look (kept_moduleOf self) h
        obtain ⟨⟨⟩, rfl, hrun⟩ := Attempt.eq_ok_of_lift h
        exact .inr ⟨rfl, after_of_ok hrun ▸ adds_mixIn (read_of_moduleOf hc) k⟩
      · exact .inl (refused h)
  | attributes reader writer =>
    rw [build, ExceptT.run_bind] at h
    obtain ⟨r', m₁, hr, h⟩ := exists_of_bind h
    obtain ⟨rfl, ⟨i, rfl⟩ | ⟨s, rfl⟩⟩ := symbolArg_cases hr
    · obtain ⟨name, -, h⟩ := Attempt.exists_of_look (kept_get.bind fun _ => kept_pure _) h
      obtain ⟨c, hc, h⟩ := Attempt.exists_of_look (kept_moduleOf self) h
      obtain ⟨⟨⟩, rfl, hrun⟩ := Attempt.eq_ok_of_lift h
      have hkept := kept_defineAttr (b := .attributes reader writer) (fun h => nomatch h) (read_of_moduleOf hc) name reader
        writer m₁ (.refl m₁)
      exact .inr ⟨rfl, after_of_ok hrun ▸ hkept⟩
    · cases h
      exact .inl ⟨⟨_, rfl⟩, rfl⟩

theorem forM_adds (hb : b.Builds) (h : (args.forM (b.build self)).run m = .ok (.ok ⟨⟩) m') : m.Adds b self m' := by
  rw [List.forM_eq_forM] at h
  induction args generalizing m with
  | nil =>
    cases h
    exact .refl _
  | cons v args ih =>
    rw [List.forM_cons, ExceptT.run_bind] at h
    obtain ⟨r, m₁, hv, h⟩ := exists_of_bind h
    rcases hb.build_cases hv with ⟨⟨e, rfl⟩, -⟩ | ⟨rfl, hs⟩
    · cases h
    · exact hs.trans (ih h)

theorem run_of_ok (hb : b.Builds) (h : (args.forM (b.build self)).run m = .ok (.ok ⟨⟩) m') (blk : Option Block) :
    (b.run self args blk).run m = .ok (.ok (.value (b.built self))) m' := by
  rw [hb.run_eq]
  exact Attempt.run_bind_ok h

theorem run_of_error (hb : b.Builds) (h : (b.build self v).run m = .ok (.error e) m') (args : List Value)
    (blk : Option Block) : (b.run self (v :: args) blk).run m = .ok (.error e) m' := by
  have hloop : ((v :: args).forM (b.build self)).run m = .ok (.error e) m' := by
    rw [List.forM_eq_forM, List.forM_cons]
    exact Attempt.run_bind_failed h
  rw [hb.run_eq]
  exact Attempt.run_bind_failed hloop

theorem run_value (hb : b.Builds) {c : Control} (h : (b.run self args blk).run m = .ok (.ok c) m') :
    c = .value (b.built self) := by
  rw [hb.run_eq, ExceptT.run_bind] at h
  obtain ⟨r, m₁, -, h⟩ := exists_of_bind h
  cases r <;> cases h
  rfl

/-- A run that fails has done what a run with the arguments before the one refused does. -/
theorem run_failed (hb : b.Builds) (h : (b.run self args blk).run m = .ok (.error e) m') : ∃ good bad rest,
    args = good ++ bad :: rest ∧ (b.run self good blk).run m = .ok (.ok (.value (b.built self))) m' ∧
    (∀ more, (b.run self (bad :: more) blk).run m' = .ok (.error e) m') ∧ m.Adds b self m' ∧ (good = [] → m' = m) := by
  rw [hb.run_eq, ExceptT.run_bind] at h
  obtain ⟨r, m₁, hloop, h⟩ := exists_of_bind h
  cases r with
  | ok u => cases h
  | error e' =>
    cases h
    obtain ⟨good, bad, rest, m₂, rfl, hgood, hbad⟩ := Attempt.forM_eq_error hloop
    rcases hb.build_cases hbad with ⟨-, rfl⟩ | ⟨hr, -⟩
    · refine ⟨good, bad, rest, rfl, hb.run_of_ok hgood blk, fun more => hb.run_of_error hbad more blk,
        hb.forM_adds hgood, ?_⟩
      rintro rfl
      cases hgood
      rfl
    · cases hr

end Builtin.Builds

/-! ## Calls -/

/-- Nothing is changed but the thread that runs. -/
def Machine.OnThread (m m' : Machine) : Prop := ∃ c, m' = { m with context := c }

theorem Machine.OnThread.adds (h : m.OnThread m') : m.Adds b self m' := by
  obtain ⟨c, rfl⟩ := h
  exact .of_eq rfl rfl fun _ => rfl

section OnThread

theorem kept_modifyContext (f : Context → Context) :
    Kept m₀.OnThread (modify fun m => { m with context := f m.context }) := by
  rintro _ ⟨c, rfl⟩
  exact ⟨f c, rfl⟩

theorem kept_modifyStack (f : Stack → Stack) : Kept m₀.OnThread (modifyStack f) :=
  kept_modifyContext fun c => { c with stack := f c.stack }

theorem kept_stack {P : Machine → Prop} : Kept P stack := kept_get.bind fun _ => kept_pure _

theorem kept_push (v : Value) : Kept m₀.OnThread (push v) :=
  kept_stack.bind fun _ => (kept_ofExcept _).bind fun _ => kept_modifyStack _

theorem kept_grow (n : Int) : Kept m₀.OnThread (grow n) := by
  refine kept_stack.bind fun s => (kept_ofExcept _).bind fun _ => ?_
  split
  · exact kept_modifyStack _
  · exact (kept_stack.bind fun _ => (kept_ofExcept _).bind fun _ => kept_modifyContext fun c => { c with stack := _ })

theorem kept_resize (n : Int) : Kept m₀.OnThread (resize n) := by
  refine kept_stack.bind fun s => ?_
  dsimp only
  split
  · exact kept_throw _
  split
  · exact kept_grow _
  · exact kept_modifyStack _

theorem kept_checkArity {P : Machine → Prop} (arity : Arity) (given : Int) : Kept P (checkArity arity given).run := by
  unfold checkArity
  split
  · split <;> exact kept_pure _
  · split <;> exact kept_pure _

theorem kept_enterBuiltin (arity : Arity) (self : Value) (base argc : Int) (kw : Value) (blk : Option Block) :
    Kept m₀.OnThread (enterBuiltin arity self base argc kw blk) := by
  unfold enterBuiltin
  extract_lets count
  have counted (argc : Int) : Kept m₀.OnThread (count argc) := by
    refine (kept_checkArity arity argc).bind fun r => ?_
    cases r with
    | error e => exact (kept_resize _).bind fun _ => kept_pure _
    | ok _ =>
      refine (kept_get.bind fun _ => kept_pure _).bind fun caller => ?_
      refine ((kept_get.bind fun _ => kept_pure _).bind fun _ => kept_pure _).bind fun callerWord => ?_
      refine (kept_push _).bind fun _ => kept_stack.bind fun s => ?_
      refine (kept_push _).bind fun _ => (kept_push _).bind fun _ => (kept_ofExcept _).bind fun w => ?_
      refine (kept_push _).bind fun _ => (kept_modifyContext fun c => { c with frame := _ }).bind fun _ => ?_
      extract_lets enter
      have entered (guarded : Bool) : Kept m₀.OnThread (enter guarded) :=
        (kept_modifyContext fun c => { c with konts := _ :: c.konts }).bind fun _ =>
          kept_stack.bind fun _ => (kept_ofExcept _).bind fun _ => kept_pure _
      split
      · exact (kept_modifyContext fun c => { c with temps := _ :: c.temps }).bind fun _ => entered true
      · exact entered false
  split
  · exact counted argc
  · exact (kept_push kw).bind fun _ => counted (argc + 1)

end OnThread

/-- Calls that build a class and fail. Either the number of arguments was refused, or the first argument that will not do
was: then the class is what the arguments before it make of it, and as it was if there are none. Modules that are mixed in
leave all methods, attributes leave all modules mixed in, and no other class is changed. -/
theorem building_stops {fn : FnId} {f : Function} {base argc : Int} (hf : m.functions.get fn = .ok f)
    (hbody : f.body = .builtin b) (hb : b.Builds) (hc : Exec.call fn self base argc kw blk m = .ok (.failure e) m') :
    enterBuiltin f.arity self base argc kw blk m = .ok (.error e) m' ∧ m.OnThread m' ∨
    ∃ good bad rest m₁, enterBuiltin f.arity self base argc kw blk m = .ok (.ok (good ++ bad :: rest)) m₁ ∧ m.OnThread m₁ ∧
      (b.run self good blk).run m₁ = .ok (.ok (.value (b.built self))) m' ∧
      (∀ more, (b.run self (bad :: more) blk).run m' = .ok (.error e) m') ∧
      (good = [] → m.OnThread m') ∧
      (b = .mixIn → m'.functions = m.functions ∧ ∀ c, (m'.classes.entry c).methods = (m.classes.entry c).methods) ∧
      (b ≠ .mixIn → ∀ c, (m'.classes.entry c).includes = (m.classes.entry c).includes ∧
        m'.classes.ancestors c = m.classes.ancestors c) ∧
      ∀ c, m.heap.read self.toRef ≠ .ok (.module c) → m'.classes.entry c = m.classes.entry c := by
  have hfunction : Exec.function fn m = .ok f m := by
    show (liftM (m.functions.get fn) : Exec Function) m = _
    rw [hf]
    rfl
  unfold Exec.call at hc
  rw [bind_of_ok hfunction] at hc
  simp only [hbody] at hc
  obtain ⟨r, m₁, henter, hc⟩ := exists_of_bind hc
  have hwithin : m.OnThread m₁ := after_of_ok henter ▸ kept_enterBuiltin f.arity self base argc kw blk m ⟨_, rfl⟩
  cases r with
  | error e' =>
    cases hc
    exact .inl ⟨henter, hwithin⟩
  | ok args =>
    obtain ⟨r, m₂, hrun, hc⟩ := exists_of_bind hc
    cases r with
    | ok c =>
      rw [hb.run_value hrun] at hc
      cases hc
    | error e' =>
      cases hc
      obtain ⟨good, bad, rest, rfl, hgood, hbad, hadds, hnone⟩ := hb.run_failed hrun
      have hs := hwithin.adds.trans hadds
      refine .inr ⟨good, bad, rest, m₁, henter, hwithin, hgood, hbad, fun h => ?_, fun h => ⟨hs.functions h, hs.methods h⟩,
        fun h c => ⟨hs.includes h c, hs.ancestors h c⟩, hs.others⟩
      rwa [hnone h]

namespace Workshop

/-- A class and a module, two functions to build the class with, and a stack with a receiver and arguments. -/
def start (vs : List Value) : Machine where
  options := {}
  heap := after (Heap.alloc (.module 1)) (after (Heap.alloc (.module 0)) (.new 0 false))
  classes := ⟨#[{ name := .object, self := Heap.firstRef 0 },
    { name := .each, isModule := true, self := Heap.firstRef 1 }]⟩
  functions := ⟨#[{ name := .add, body := .builtin .mixIn, arity := .atLeast 1 },
    { name := .sub, body := .builtin (.attributes true false), arity := .atLeast 0 }]⟩
  pool := { capacity := 0, stackSize := 0 }
  context := { stack := (Stack.empty 0).appendAll (Heap.firstRef 0 :: vs) }

/-- The call of a function with what is on the stack. -/
def call (fn : FnId) (vs : List Value) : Exec Control := Exec.call fn (Heap.firstRef 0) 1 vs.length .nil none

def left (fn : FnId) (vs : List Value) : Machine := after (call fn vs) (start vs)

/-- The module and a number. -/
def modules : List Value := [Heap.firstRef 1, .ofInt 1]

/-- A name and a number. -/
def names : List Value := [.ofSymbol .map, .ofInt 1]

theorem call_fails {fn : FnId} {vs : List Value}
    (h : (result? (call fn vs) (start vs)).any (fun | .deliver (.error _) => true | _ => false) = true) :
    ∃ e, call fn vs (start vs) = .ok (.failure e) (left fn vs) := by
  obtain ⟨c, hc, hfails⟩ := (Option.any_eq_true _ _).1 h
  split at hfails
  · exact ⟨_, eq_ok_of_result? hc⟩
  · cases hfails

theorem call_modules_fails : ∃ e, call ⟨1⟩ modules (start modules) = .ok (.failure e) (left ⟨1⟩ modules) :=
  call_fails (by decide +kernel)

theorem version_modules : (left ⟨1⟩ modules).version = 1 := by decide +kernel

theorem modules_stop : ∃ good bad rest m,
    enterBuiltin (.atLeast 1) (Heap.firstRef 0) 1 2 .nil none (start modules) = .ok (.ok (good ++ bad :: rest)) m ∧
    (Builtin.mixIn.run (Heap.firstRef 0) good none).run m = .ok (.ok (.value (Heap.firstRef 0))) (left ⟨1⟩ modules) := by
  obtain ⟨e, hc⟩ := call_modules_fails
  rcases building_stops rfl rfl .mixIn hc with ⟨-, c, h⟩ | ⟨good, bad, rest, m, henter, -, hgood, -⟩
  · have hversion := version_modules
    rw [h] at hversion
    exact absurd (show (0 : UInt64) = 1 from hversion) (by decide)
  · exact ⟨good, bad, rest, m, henter, hgood⟩

/-- A module that was mixed in before a call fails stays mixed in, and an attribute that was defined stays defined. -/
theorem building_not_atomic :
    (∃ e, call ⟨1⟩ modules (start modules) = .ok (.failure e) (left ⟨1⟩ modules)) ∧
    (start modules).version = 0 ∧ (left ⟨1⟩ modules).version = 1 ∧
    ((start modules).classes.entry 0).includes = [] ∧ ((left ⟨1⟩ modules).classes.entry 0).includes = [1] ∧
    (∃ e, call ⟨2⟩ names (start names) = .ok (.failure e) (left ⟨2⟩ names)) ∧
    ((start names).classes.entry 0).methods = [] ∧ ((left ⟨2⟩ names).classes.entry 0).methods = [(.map, ⟨3⟩)] :=
  ⟨call_modules_fails, rfl, version_modules, rfl, by decide +kernel, call_fails (by decide +kernel), rfl, by decide +kernel⟩

end Workshop

end RubyMachine
