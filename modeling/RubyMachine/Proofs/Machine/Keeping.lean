import RubyMachine.Proofs.Machine.Steps

/-! Properties that computations keep. A property that the primitive computations keep is kept by all that
leave threads where they are. -/

namespace RubyMachine

/-- A property of machines that computations keep, failed ones included. -/
def Keeping (P : Machine → Prop) {α : Type} (K : Known) (x : Exec α) (R : Known → α → Prop) : Prop :=
  K.All → ∀ m, P m → ∃ K', K ≤ K' ∧ K'.All ∧ P (after x m) ∧ ∀ a m', x m = .ok a m' → R K' a

namespace Keeping

variable {P : Machine → Prop} {α β : Type} {K : Known} {R : Known → α → Prop}

theorem of_kept {x : Exec α} (hx : ∀ m, P m → P (after x m)) (hR : K.All → ∀ m a m', x m = .ok a m' → R K a) :
    Keeping P K x R :=
  fun hK m hm => ⟨K, le_rfl, hK, hx m hm, hR hK m⟩

/-- A computation that counts as a change. -/
theorem of_spent {x : Exec α} (hx : ∀ m, P m → P (after x m)) : Keeping P K x fun K' _ => K' = K.spend :=
  fun hK m hm => ⟨K.spend, ⟨id, id, id, id, rfl, rfl, rfl⟩, { hK with }, hx m hm, fun _ _ _ => rfl⟩

theorem pure {a : α} (h : R K a) : Keeping P K (Pure.pure a) R :=
  of_kept (fun _ hm => hm) fun _ _ a' m' h' => by
    cases h'
    exact h

theorem bind {R' : Known → β → Prop} {x : Exec α} {f : α → Exec β} (hx : Keeping P K x R)
    (hf : ∀ K' a, K ≤ K' → R K' a → Keeping P K' (f a) R') : Keeping P K (x >>= f) R' := by
  intro hK m hm
  obtain ⟨K₁, h₁, hK₁, hm₁, hR₁⟩ := hx hK m hm
  cases hxm : x m with
  | error d m₁ =>
    have he : (x >>= f) m = .error d m₁ := by rw [bind_apply, hxm]
    rw [after_of_error hxm] at hm₁
    refine ⟨K₁, h₁, hK₁, (after_of_error he).symm ▸ hm₁, fun a m' h => ?_⟩
    rw [he] at h
    cases h
  | ok a m₁ =>
    have he : (x >>= f) m = f a m₁ := by rw [bind_apply, hxm]
    have ha : after (x >>= f) m = after (f a) m₁ := by rw [after, he, after]
    rw [after_of_ok hxm] at hm₁
    obtain ⟨K₂, h₂, hK₂, hm₂, hR₂⟩ := hf K₁ a h₁ (hR₁ a m₁ hxm) hK₁ m₁ hm₁
    exact ⟨K₂, h₁.trans h₂, hK₂, ha ▸ hm₂, fun b m' h => hR₂ b m' (he ▸ h)⟩

theorem basics (P : Machine → Prop) : Basics (Keeping P) where
  pure := pure
  bind := bind
  throw _ := of_kept (fun _ hm => hm) fun _ _ _ _ h => nomatch h

theorem whole : Keeping P K get (Same K K.machine) := of_kept (fun _ hm => hm) fun hK _ _ _ _ => ⟨rfl, hK.machine _⟩

/-- Changes that keep a property. -/
theorem changed {Q : α → Prop} {f : Machine → α × Machine} (hf : ∀ m, K.machine m → P m → P (f m).2 ∧ Q (f m).1) :
    Keeping P K (modifyGet f) (Same K Q) := fun hK m hm =>
  ⟨K, le_rfl, hK, (hf m (hK.machine m) hm).1, fun a m' h => by
    cases h
    exact ⟨rfl, (hf m (hK.machine m) hm).2⟩⟩

/-! ### Computations by which nothing new is known -/

/-- A computation keeps a property. -/
def Kept (P : Machine → Prop) (x : Exec α) : Prop := ∀ m, P m → P (after x m)

theorem Kept.bind {x : Exec α} {f : α → Exec β} (hx : Kept P x) (hf : ∀ a, Kept P (f a)) : Kept P (x >>= f) :=
  fun m hm => after_bind (hx m hm) fun a _ h => hf a _ (after_of_ok h ▸ hx m hm)

theorem kept_pure (a : α) : Kept P (Pure.pure a) := fun _ hm => hm

theorem kept_throw (d : Defect) : Kept P (throw d : Exec α) := fun _ hm => hm

theorem kept_get : Kept P get := fun _ hm => hm

theorem kept_ofExcept (x : Except Defect α) : Kept P (Exec.ofExcept x) := by
  cases x with
  | ok a => exact kept_pure a
  | error d => exact kept_throw d

theorem kept_deref (v : Value) : Kept P (Exec.deref v) :=
  (kept_ofExcept v.asRef).bind fun r => kept_get.bind fun m => kept_ofExcept (m.heap.read r)

theorem kept_deref? (v : Value) : Kept P (Exec.deref? v) := by
  unfold Exec.deref?
  split
  · exact (kept_deref v).bind fun _ => kept_pure _
  · exact kept_pure _

theorem kept_dictKey (v : Value) : Kept P (Exec.dictKey v) := by
  refine Kept.bind (Kept.bind (kept_deref? v) fun o => ?_) fun r => ?_
  · split <;> exact kept_pure _
  · split <;> exact kept_pure _

theorem kept_function (fn : FnId) : Kept P (Exec.function fn) := kept_get.bind fun m => kept_ofExcept (m.functions.get fn)

theorem kept_inspect (v : Value) : Kept P (Exec.inspect v) := kept_get.bind fun m => kept_ofExcept (m.inspect v)

theorem kept_classOf (v : Value) : Kept P (Exec.classOf v) := by
  unfold Exec.classOf
  split_ifs
  any_goals exact kept_pure _
  exact kept_get.bind fun _ => (kept_deref v).bind fun _ => kept_pure _

theorem kept_noMethod (name : Ident) (v : Value) : Kept P (Exec.noMethod name v) :=
  (kept_get.bind fun _ => kept_pure _).bind fun _ => (kept_inspect v).bind fun _ => kept_pure _

/-! ### Looking at frames -/

theorem kept_word (i : Int) : Kept P (Exec.word i) := (kept_get.bind fun _ => kept_pure _).bind fun s => kept_ofExcept (s.word? i)

theorem kept_asScope (v : Value) : Kept P (Exec.asScope v) := by
  refine (kept_deref v).bind fun o => ?_
  split
  · exact kept_pure _
  · exact kept_throw _

theorem kept_demand (x : Option α) : Kept P (Exec.demand x) := by
  unfold Exec.demand
  split
  · exact kept_pure _
  · exact kept_throw _

theorem kept_wordAt (e : Env) (i : Int) : Kept P (e.wordAt i) := by
  cases e with
  | stack f => exact kept_word _
  | heap v =>
    refine (kept_asScope v).bind fun s => ?_
    dsimp only
    split
    · exact (kept_throw _).bind fun _ => kept_demand _
    · exact kept_demand _

theorem kept_envAt (v : Value) : Kept P (Exec.envAt v) := by
  unfold Exec.envAt
  split
  · refine (kept_word _).bind fun ep => ?_
    split
    · exact (kept_asScope _).bind fun _ => kept_pure _
    · exact kept_pure _
  split
  · exact (kept_asScope _).bind fun _ => kept_pure _
  · exact kept_throw _

theorem kept_codeFrameFrom? (fuel frame : Nat) : Kept P (Exec.codeFrameFrom? fuel frame) := by
  induction fuel generalizing frame with
  | zero => exact kept_pure _
  | succ fuel ih =>
    refine Kept.bind (((kept_word _).bind fun w => (kept_ofExcept w.asFixnum).bind fun _ => kept_pure _).bind fun _ =>
      kept_pure _) fun code => ?_
    split
    · exact kept_pure _
    refine Kept.bind ((kept_word _).bind fun w => ?_) fun prev => ?_
    · split <;> exact kept_pure _
    · split
      · exact ih _
      · exact kept_pure _

theorem kept_currentBlock? : Kept P Exec.currentBlock? := by
  refine Kept.bind ((kept_get.bind fun _ => kept_pure _).bind fun f => ?_) fun f => ?_
  · split
    · exact (kept_get.bind fun _ => kept_pure _).bind fun _ => kept_codeFrameFrom? _ _
    · exact kept_pure _
  split
  · refine (kept_word _).bind fun w => (kept_envAt w).bind fun e => ?_
    exact (kept_wordAt e _).bind fun w => (kept_envAt w).bind fun e => (kept_wordAt e _).bind fun _ => kept_pure _
  · exact kept_pure _

end Keeping

/-! ## Primitive computations -/

/-- A property that primitive computations keep. -/
structure Keeping.Stable (P : Machine → Prop) : Prop where
  alloc {o : Object} : (∀ id, o ≠ .fiber id) → Kept P (Exec.alloc o)
  update (v : Value) {f : Object → Object} : (∀ o id, f o = .fiber id → o = .fiber id) → Kept P (Exec.update v f)
  setEnabled (on : Bool) : Kept P (Exec.onHeap (modify fun h => h.setEnabled on))
  classes {m : Machine} {t : ClassTable} {version : UInt64} : P m → P { m with classes := t, version }
  lookups {m : Machine} {c : MethodCache} : P m → P { m with lookups := c }
  functions {m : Machine} {fn : FnId} {g : Function → Function} : P m → (∀ f, (g f).body = f.body) →
    P { m with functions := m.functions.modify fn g }
  addFunction {m : Machine} {f : Function} : P m → (∀ seq, f.body ≠ .code seq) →
    P { m with functions := (m.functions.add f).2 }
  newFiber (body : Value) (iteration : Option Iteration) : Kept P (Exec.newFiber body iteration)
  releaseFiber {K : Known} {id : Nat} : K.fib id → Keeping P K (Exec.releaseFiber id) (Same K fun _ => True)
  steady {m m' : Machine} : P m → m.Minor m' → m.Steady m' → m.Still m' → P m'

theorem Object.Change.fiber {o o' : Object} {id : Nat} (h : o.Change o') (he : o' = .fiber id) : o = .fiber id := by
  subst he
  cases h
  rfl

/-- An object after a slot was set in it. Only instances have slots. -/
def Object.withSlot (i : Nat) (x : Value) : Object → Object
  | .instance c slots => .instance c (Object.setSlot slots i x)
  | o => o

theorem Object.fiber_of_withSlot {o : Object} {i id : Nat} {x : Value} (h : o.withSlot i x = .fiber id) : o = .fiber id := by
  cases o with
  | «instance» => cases h
  | _ => exact h

namespace Keeping.Stable

variable {P : Machine → Prop} {K : Known} (hP : Stable P)

include hP

theorem kept_modifyModule (c : Nat) (f : Module → Module) : Kept P (Exec.modifyModule c f) := fun _ hm => hP.classes hm

theorem kept_bumpVersion : Kept P Exec.bumpVersion := fun _ hm => hP.classes hm

omit hP in
theorem kept_module (c : Nat) : Kept P (Exec.module c) := kept_get.bind fun _ => kept_pure _

theorem kept_allocModule (name : Ident) (super : Option Nat) (isModule : Bool) :
    Kept P (Exec.allocModule name super isModule) :=
  kept_get.bind fun _ => (hP.alloc fun _ h => by cases h).bind fun _ =>
    Kept.bind (fun _ hm => hP.classes hm) fun _ => kept_pure _

theorem kept_setConst (cls : Nat) (name : Ident) (v : Value) : Kept P (Exec.setConst cls name v) :=
  (hP.kept_modifyModule _ _).bind fun _ => hP.kept_bumpVersion

theorem kept_ivarSlot (c : Nat) (name : Ident) : Kept P (Exec.ivarSlot c name) := by
  unfold Exec.ivarSlot
  split
  · exact (kept_throw _).bind fun _ _ hm => hP.classes hm
  · exact fun _ hm => hP.classes hm

theorem kept_setSlotOf (v : Value) (i : Int) (x : Value) : Kept P (Exec.setSlotOf v i x) := by
  have update : Kept P (Exec.update v (Object.withSlot i.toNat x)) := hP.update _ fun o id => Object.fiber_of_withSlot
  unfold Exec.setSlotOf
  split
  · exact (kept_throw _).bind fun _ => update
  · exact update

theorem kept_dictInsert (d k v : Value) : Kept P (Exec.dictInsert d k v) := by
  refine (kept_dictKey k).bind fun key => hP.update _ fun o id h => ?_
  cases o with
  | dict => cases h
  | _ => exact h

theorem kept_getIvar (v : Value) (name : Ident) : Kept P (Exec.getIvar v name) := by
  refine (kept_deref? v).bind fun o => ?_
  split
  · exact (hP.kept_ivarSlot _ _).bind fun _ => kept_pure _
  · exact kept_get.bind fun _ => kept_pure _
  · exact kept_pure _

theorem kept_setIvar (v : Value) (name : Ident) (w : Value) : Kept P (Exec.setIvar v name w) := by
  refine (kept_deref? v).bind fun o => ?_
  split
  · exact (hP.kept_ivarSlot _ _).bind fun _ => (hP.kept_setSlotOf _ _ _).bind fun _ => kept_pure _
  · exact Kept.bind (fun _ hm => hP.classes hm) fun _ => kept_pure _
  · exact kept_pure _

theorem kept_mixIn (cls mod : Nat) : Kept P (Exec.mixIn cls mod) := by
  refine (kept_module _).bind fun e => ?_
  split
  · exact kept_pure _
  · exact (hP.kept_modifyModule _ _).bind fun _ => hP.kept_bumpVersion

theorem kept_defineMethod (cls : Nat) (name : Ident) (fn : FnId) : Kept P (Exec.defineMethod cls name fn) :=
  (hP.kept_modifyModule _ _).bind fun _ => hP.kept_bumpVersion

theorem kept_findMethod? (cls : Nat) (name : Ident) : Kept P (Exec.findMethod? cls name) := by
  intro m hm
  simp only [after, Exec.findMethod?, modifyGet_apply]
  split <;> exact hP.lookups hm

theorem kept_setSite (fn : FnId) (i : Nat) (c : Cache.Inline) : Kept P (Exec.setSite fn i c) :=
  fun _ hm => hP.functions hm fun _ => rfl

theorem kept_findMethodAt? (fn : FnId) (i cls : Nat) (name : Ident) : Kept P (Exec.findMethodAt? fn i cls name) := by
  refine (kept_function fn).bind fun f => ?_
  split
  · exact kept_throw _
  refine kept_get.bind fun m => (hP.kept_setSite _ _ _).bind fun _ => ?_
  split
  · exact kept_pure _
  refine (hP.kept_findMethod? _ _).bind fun r => ?_
  split
  · exact (hP.kept_setSite _ _ _).bind fun _ => kept_pure _
  · exact kept_pure _

theorem kept_findConstAt? (fn : FnId) (i : Nat) (name : Ident) : Kept P (Exec.findConstAt? fn i name) := by
  refine (kept_function fn).bind fun f => ?_
  split
  · exact kept_throw _
  refine kept_get.bind fun m => ?_
  dsimp only
  split
  · exact kept_pure _
  refine (kept_get.bind fun m => kept_pure _).bind fun v => ?_
  split
  · exact Kept.bind (fun _ hm => hP.functions hm fun _ => rfl) fun _ => kept_pure _
  · exact kept_pure _

theorem logic : Logic (Keeping P) where
  toViews := (basics P).views whole
  adjust _ hf := changed fun m hk hm => by
    obtain ⟨h, hs, hq, -, hp⟩ := hf m hk
    exact ⟨hP.steady hm h hs hq, hp⟩
  deref _ := of_kept (kept_deref _) fun hK _ _ _ _ => ⟨rfl, hK.object _ _⟩
  inspect _ := of_kept (kept_inspect _) fun _ _ _ _ _ => ⟨rfl, trivial⟩
  alloc ho _ := of_kept (hP.alloc fun id h => by rw [h] at ho; cases ho) fun hK _ _ _ _ => hK.value _
  update _ hf := fun hK => of_kept (hP.update _ fun o id h => (hf o (hK.object _ _)).1.fiber h)
    (fun _ _ _ _ _ => ⟨rfl, trivial⟩) hK
  dictInsert _ _ _ := of_kept (hP.kept_dictInsert _ _ _) fun _ _ _ _ _ => ⟨rfl, trivial⟩
  getIvar _ := of_kept (hP.kept_getIvar _ _) fun hK _ _ _ _ => ⟨rfl, hK.value _⟩
  setIvar _ _ := of_kept (hP.kept_setIvar _ _ _) fun _ _ _ _ _ => ⟨rfl, trivial⟩
  enroll _ _ := of_kept ((hP.kept_allocModule _ _ _).bind fun _ => (kept_module _).bind fun _ =>
    (hP.kept_setConst _ _ _).bind fun _ => kept_pure _) fun hK _ _ _ _ => ⟨hK.cls _, rfl⟩
  attach _ _ := of_kept ((hP.kept_allocModule _ _ _).bind fun _ => (hP.kept_modifyModule _ _).bind fun _ =>
    (hP.kept_modifyModule _ _).bind fun _ => hP.kept_bumpVersion.bind fun _ => kept_pure _)
    fun hK _ _ _ _ => ⟨hK.cls _, rfl⟩
  mixIn _ _ _ := of_spent (hP.kept_mixIn _ _)
  addMethod _ _ hb _ _ := of_kept (Kept.bind (fun _ hm => hP.addFunction hm hb) fun _ => hP.kept_defineMethod _ _ _)
    fun _ _ _ _ _ => ⟨rfl, trivial⟩
  setConst _ _ _ := of_spent (hP.kept_setConst _ _ _)
  defineMethod _ _ := of_spent (hP.kept_defineMethod _ _ _)
  setOwner _ := of_kept (fun _ hm => hP.functions hm fun _ => rfl) fun _ _ _ _ _ => ⟨rfl, trivial⟩
  findMethod? := of_kept (hP.kept_findMethod? _ _) fun _ _ _ _ _ => ⟨rfl, trivial⟩
  findMethodAt? _ := of_kept (hP.kept_findMethodAt? _ _ _ _) fun _ _ _ _ _ => ⟨rfl, trivial⟩
  findConstAt? _ := of_kept (hP.kept_findConstAt? _ _ _) fun hK _ _ _ _ => ⟨rfl, maybe_all hK.value _⟩
  newFiber _ _ := of_kept (hP.newFiber _ _) fun hK _ _ _ _ => hK.value _
  releaseFiber := hP.releaseFiber
  setEnabled := of_kept (hP.setEnabled _) fun _ _ _ _ _ => ⟨rfl, trivial⟩

end Keeping.Stable

/-- Everything is known, and `changes` definitions may be replaced. -/
def Known.anything (changes : Nat) : Known where
  value _ := True
  cls _ := True
  fib _ := True
  code _ := True
  site _ _ _ := True
  constSite _ _ _ := True
  changes := changes
  home _ _ := True
  imm _ _ := trivial
  fixed _ _ := trivial
  consts _ _ _ _ := trivial
  home_self _ := trivial

theorem Known.all_anything (n : Nat) : (Known.anything n).All :=
  ⟨fun _ => trivial, fun _ => trivial, fun _ => trivial, fun _ => trivial, fun _ _ => trivial⟩

theorem Known.ready_anything (c : Control) : (Known.anything c.changes).ready c := by
  cases c with
  | exec a pc =>
    exact fun op _ =>
      { act := trivial
        operand := fun _ _ _ => trivial
        send := fun _ _ _ => trivial
        const := fun _ _ _ _ _ => trivial
        changes := Nat.one_pos }
  | call => exact Nat.le_refl _
  | _ => trivial

end RubyMachine
