import RubyMachine.Proofs.Machine.Detached
import RubyMachine.Proofs.Machine.Operators

/-! What is done to a stack does not tell what its slots hold that are not live, unless they are read as memory. -/

namespace RubyMachine

/-! ## Failures -/

/-- A failure is one in the terms of the program, no signal that unwinds. -/
def Ordinary (r : Except Failure Value) : Prop := ∀ f, r = .error f → f.kind.isControl = false

/-! ## Stacks -/

namespace Stack

variable {s t : Stack} {n : Nat}

theorem Alike.append (h : s.Alike t) (v : Value) : (s.append v).Alike (t.append v) :=
  ⟨h.id, h.capacity, by rw [toList_append, toList_append, h.live]⟩

theorem Alike.appendAll (h : s.Alike t) (vs : List Value) : (s.appendAll vs).Alike (t.appendAll vs) :=
  ⟨h.id, h.capacity, by rw [toList_appendAll, toList_appendAll, h.live]⟩

theorem toList_cut_of_le (v : Value) (h : s.len ≤ n) : (s.cut n v).toList = s.toList := by
  have slots : (s.cut n v).slots = wipe s.slots n v (s.len - n) := rfl
  have len : (s.cut n v).len = s.len := Nat.min_eq_right h
  rw [toList, toList, len, slots, Nat.sub_eq_zero_of_le h]
  rfl

theorem Alike.cut (h : s.Alike t) (n : Nat) (v : Value) : (s.cut n v).Alike (t.cut n v) := by
  refine ⟨h.id, h.capacity, ?_⟩
  have hlen := h.len
  rcases Nat.le_total n s.len with hn | hn
  · rw [toList_cut v hn, toList_cut v (hlen ▸ hn), h.live]
  · rw [toList_cut_of_le v hn, toList_cut_of_le v (hlen ▸ hn), h.live]

theorem Alike.checkCapacity (h : s.Alike t) (n : Int) : s.checkCapacity n = t.checkCapacity n := by
  rw [Stack.checkCapacity, Stack.checkCapacity, h.capacity]

end Stack

/-! ## Machines -/

namespace Machine

variable {m m' : Machine}

/-- The machines differ at most in slots of the stack that are not live. -/
def Alike (m m' : Machine) : Prop := ∃ s, s.Alike m.context.stack ∧ m' = m.withStack s

theorem Alike.refl (m : Machine) : m.Alike m := ⟨m.context.stack, .refl _, rfl⟩

theorem Alike.symm (h : m.Alike m') : m'.Alike m := by
  obtain ⟨s, hs, rfl⟩ := h
  exact ⟨m.context.stack, hs.symm, rfl⟩

theorem Alike.stack (h : m.Alike m') : m.context.stack.Alike m'.context.stack := by
  obtain ⟨s, hs, rfl⟩ := h
  exact hs.symm

/-- The thread that runs is the same, and so is what is left to be done there. -/
def Stands (m m' : Machine) : Prop := m'.context.fiber = m.context.fiber ∧ m'.context.konts = m.context.konts

theorem Stands.refl (m : Machine) : m.Stands m := ⟨rfl, rfl⟩

theorem Stands.trans {m₁ : Machine} (h : m.Stands m') (h' : m'.Stands m₁) : m.Stands m₁ :=
  ⟨h'.1.trans h.1, h'.2.trans h.2⟩

/-- The machine with another running thread. -/
def withContext (m : Machine) (x : Context) : Machine := { m with context := x }

theorem mapThreads_running (g : Context → Context) (m : Machine) : m.mapThreads g id = m.withContext (g m.context) := by
  have same : Fiber.mapContext id = id := funext fun f => congrArg (fun x => { f with context := x }) (Option.map_id' ..)
  rw [mapThreads, same, List.map_id, Array.map_id]
  rfl

end Machine

namespace Exec

open Machine

variable {α β γ δ : Type} {x : Exec α} {y : Exec β} {m m' m₁ : Machine} {R : α → β → Prop}

theorem Detached.running (hx : x.Detached) (g : Context → Context) (m : Machine) :
    x (m.withContext (g m.context)) = mapState (fun n => n.withContext (g n.context)) (x m) := by
  have h := hx g id m
  rwa [mapThreads_running, show mapThreads g id = fun n => n.withContext (g n.context) from funext (mapThreads_running g)] at h

/-- The running thread is left as it is. -/
theorem Detached.context (hx : x.Detached) (m : Machine) : (after x m).context = m.context := by
  have h : x m = mapState (Machine.withContext · m.context) (x m) := hx.running (fun _ => m.context) m
  unfold after
  cases hm : x m with
  | ok a t =>
    rw [hm] at h
    exact (congrArg Machine.context (EStateM.Result.ok.inj h).2).trans rfl
  | error d t =>
    rw [hm] at h
    exact (congrArg Machine.context (EStateM.Result.error.inj h).2).trans rfl

/-- Two computations come to something alike, in machines that are alike and on the thread of `m₀`. -/
inductive Likened (m₀ : Machine) (R : α → β → Prop) :
    EStateM.Result Defect Machine α → EStateM.Result Defect Machine β → Prop where
  | ok {a : α} {b : β} {m m' : Machine} : R a b → m.Alike m' → m₀.Stands m → Likened m₀ R (.ok a m) (.ok b m')
  | error {d : Defect} {m m' : Machine} : m.Alike m' → Likened m₀ R (.error d m) (.error d m')

/-- In machines that are alike, the computations come to something alike. -/
def Likewise (R : α → β → Prop) (x : Exec α) (y : Exec β) : Prop := ∀ m m', m.Alike m' → Likened m R (x m) (y m')

namespace Likewise

theorem pure {a : α} {b : β} (h : R a b) : Likewise R (Pure.pure a) (Pure.pure b) := fun m _ hm => .ok h hm (.refl m)

theorem throw (d : Defect) : Likewise R (throw d) (throw d) := fun _ _ hm => .error hm

theorem bind {S : γ → δ → Prop} {f : α → Exec γ} {g : β → Exec δ} (hx : Likewise R x y)
    (hf : ∀ a b, R a b → Likewise S (f a) (g b)) : Likewise S (x >>= f) (y >>= g) := by
  intro m m' hm
  rw [bind_apply, bind_apply]
  have hxy := hx m m' hm
  revert hxy
  generalize x m = o
  generalize y m' = o'
  intro hxy
  cases hxy with
  | error h => exact .error h
  | @ok a b m₁ m₁' hab h hs =>
    have hfg := hf a b hab m₁ m₁' h
    revert hfg
    dsimp only
    generalize f a m₁ = o
    generalize g b m₁' = o'
    intro hfg
    cases hfg with
    | error h => exact .error h
    | ok hr h hs' => exact .ok hr h (hs.trans hs')

theorem ofExcept (z : Except Defect α) : Likewise Eq (liftM z : Exec α) (liftM z) := by
  cases z with
  | ok a => exact pure rfl
  | error d => exact throw d

theorem of_detached (hx : x.Detached) : Likewise Eq x x := by
  rintro m _ ⟨s, hs, rfl⟩
  have there : x (m.withStack s) = mapState (Machine.withStack · s) (x m) := hx.running (fun c => { c with stack := s }) m
  have context := hx.context m
  rw [there]
  unfold after at context
  cases hm : x m with
  | ok a t =>
    rw [hm] at context
    have context : t.context = m.context := context
    exact .ok rfl ⟨s, context ▸ hs, rfl⟩ ⟨congrArg Context.fiber context, congrArg Context.konts context⟩
  | error d t =>
    rw [hm] at context
    have context : t.context = m.context := context
    exact .error ⟨s, context ▸ hs, rfl⟩

theorem look {f : Stack → Exec α} {g : Stack → Exec β} (h : ∀ s t, s.Alike t → Likewise R (f s) (g t)) :
    Likewise R (stack >>= f) (stack >>= g) := fun m m' hm => h _ _ hm.stack m m' hm

theorem modifyStack {f g : Stack → Stack} (h : ∀ s t, s.Alike t → (f s).Alike (g t)) :
    Likewise Eq (Exec.modifyStack f) (Exec.modifyStack g) := by
  rintro m _ ⟨s, hs, rfl⟩
  exact .ok rfl ⟨g s, (h _ _ hs.symm).symm, rfl⟩ ⟨rfl, rfl⟩

theorem seq {f : α → Exec γ} {g : α → Exec δ} {S : γ → δ → Prop} {x y : Exec α} (hx : Likewise Eq x y)
    (hf : ∀ a, Likewise S (f a) (g a)) : Likewise S (x >>= f) (y >>= g) :=
  bind hx fun a _ h => h ▸ hf a

theorem push (v : Value) : Likewise Eq (push v) (push v) := by
  refine look fun s t h => ?_
  rw [h.len, h.checkCapacity]
  exact seq (ofExcept _) fun _ => modifyStack fun s t h => h.append v

theorem grow {n : Int} (hn : 0 ≤ n) : Likewise Eq (grow n) (grow n) := by
  refine look fun s t h => ?_
  rw [h.len, h.checkCapacity]
  refine seq (ofExcept _) fun _ => ?_
  rw [if_pos hn]
  exact modifyStack fun s t h => h.appendAll _

theorem resize (n : Int) : Likewise Eq (resize n) (resize n) := by
  refine look fun s t h => ?_
  rw [h.len]
  dsimp only
  split
  · exact throw _
  split
  · exact grow (by omega)
  · exact modifyStack fun s t h => h.cut _ _

theorem setFrame (f : Option Nat) : Likewise Eq (setFrame f) (setFrame f) := by
  rintro m _ ⟨s, hs, rfl⟩
  exact .ok rfl ⟨s, hs, rfl⟩ ⟨rfl, rfl⟩

end Likewise

/-! ## Activations -/

variable {a : Activation} {r : Except Failure Value} {f : Failure}

/-- Gives the stack and the frame back, and hands on an outcome. -/
def giveBack (a : Activation) (r : Except Failure Value) : Exec Control := do
  setFrame a.caller
  resize a.height
  return .deliver r

theorem Likewise.giveBack {S : Control → Control → Prop} (a : Activation) (r : Except Failure Value)
    (h : S (.deliver r) (.deliver r)) : Likewise S (giveBack a r) (giveBack a r) :=
  seq (setFrame _) fun _ => seq (resize _) fun _ => pure h

theorem leave_ordinary (h : Ordinary r) : leave a r = giveBack a r := by
  cases r with
  | ok v => rfl
  | error f =>
    have ordinary := h f rfl
    unfold leave
    dsimp only
    rw [if_neg fun hc => by rw [hc.1] at ordinary; cases ordinary]
    rfl

end Exec

end RubyMachine
