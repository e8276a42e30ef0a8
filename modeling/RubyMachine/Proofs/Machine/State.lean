import RubyMachine.Proofs.Machine.Logic

/-! Stacks and objects in every logic: a known machine gives known words, and known words leave it known. -/

namespace RubyMachine

/-! ## Words of a stack -/

namespace Stack

theorem mem_store {a : Array Value} {i : Nat} {v w : Value} (h : w ∈ store a i v) :
    w ∈ a ∨ w = v ∨ w = .zero := by
  unfold store at h
  split at h
  · rcases Array.mem_or_eq_of_mem_setIfInBounds h with h | h
    · exact .inl h
    · exact .inr (.inl h)
  · simp only [Array.mem_push, Array.mem_append, Array.mem_replicate] at h
    grind

theorem mem_wipe {a : Array Value} {i n : Nat} {v w : Value} (h : w ∈ wipe a i v n) : w ∈ a ∨ w = v := by
  induction n generalizing a i with
  | zero => exact .inl h
  | succ n ih =>
    rcases ih h with h | h
    · exact Array.mem_or_eq_of_mem_setIfInBounds h
    · exact .inr h

theorem mem_storeAll {a : Array Value} {i : Nat} {vs : List Value} {w : Value} (h : w ∈ storeAll a i vs) :
    w ∈ a ∨ w ∈ vs ∨ w = .zero := by
  induction vs generalizing a i with
  | nil => exact .inl h
  | cons v vs ih =>
    rcases ih h with h | h | h
    · rcases mem_store h with h | h | h
      · exact .inl h
      · exact .inr (.inl (by simp [h]))
      · exact .inr (.inr h)
    · exact .inr (.inl (by simp [h]))
    · exact .inr (.inr h)

theorem mem_of_mem_words {s : Stack} {i n : Nat} {w : Value} (h : w ∈ s.words i n) : w ∈ s.slots := by
  rw [words, Array.toList_extract, List.extract_eq_take_drop] at h
  exact Array.mem_toList_iff.mp (List.mem_of_mem_drop (List.mem_of_mem_take h))

end Stack

theorem mem_getD {a : Array Value} {i : Nat} {d : Value} : a.getD i d ∈ a ∨ a.getD i d = d := by
  rw [Array.getD_eq_getD_getElem?]
  cases h : a[i]? with
  | none => exact .inr rfl
  | some v => exact .inl (Array.mem_of_getElem? h)

namespace Known

variable {K : Known} {s : Stack} {v : Value} {vs : List Value}

/-- The same stack, with words that are known. -/
def stackOf (K : Known) (s s' : Stack) : Prop := s'.id = s.id ∧ s'.capacity = s.capacity ∧ K.stack s'

theorem zero : K.value .zero := K.imm _ (by decide)

theorem nil : K.value .nil := K.imm _ (by decide)

theorem stack_poke {i : Nat} (hs : K.stack s) (hv : K.value v) : K.stack (s.poke i v) := by
  intro w hw
  rcases Stack.mem_store hw with h | rfl | rfl
  · exact hs w h
  · exact hv
  · exact zero

theorem stack_append (hs : K.stack s) (hv : K.value v) : K.stack (s.append v) := stack_poke (s := s) hs hv

theorem stack_cut {n : Nat} (hs : K.stack s) (hv : K.value v) : K.stack (s.cut n v) := by
  intro w hw
  rcases Stack.mem_wipe hw with h | rfl
  · exact hs w h
  · exact hv

theorem stack_appendAll (hs : K.stack s) (hv : K.values vs) : K.stack (s.appendAll vs) := by
  intro w hw
  rcases Stack.mem_storeAll hw with h | h | rfl
  · exact hs w h
  · exact hv w h
  · exact zero

theorem stack_empty (n : Int) (id : Nat) : K.stack (.empty n id) := fun v hv => by simp [Stack.empty] at hv

theorem stack_reset (hs : K.stack s) : K.stack s.reset := by
  intro w hw
  rcases Stack.mem_wipe hw with h | rfl
  · exact hs w h
  · exact zero

theorem values_words (hs : K.stack s) (i n : Nat) : K.values (s.words i n) :=
  fun v hv => hs v (Stack.mem_of_mem_words hv)

theorem value_getD {a : Array Value} (ha : ∀ v ∈ a, K.value v) {i : Nat} {d : Value} (hd : K.value d) :
    K.value (a.getD i d) := by
  rcases mem_getD (a := a) (i := i) (d := d) with h | h
  · exact ha _ h
  · rw [h]
    exact hd

theorem values_nil : K.values [] := fun _ h => absurd h (by simp)

theorem values_cons (hv : K.value v) (hs : K.values vs) : K.values (v :: vs) := by
  intro w hw
  rcases List.mem_cons.mp hw with rfl | hw
  · exact hv
  · exact hs w hw

end Known

namespace Logic

open Known

variable {K : Known} {s : Stack} {v : Value} {vs : List Value}

/-! ## Checked operations of a stack -/

theorem gives_checkWord (s : Stack) (i : Int) : Gives (fun _ => True) (s.checkWord i) := by
  unfold Stack.checkWord
  exact gives_ite (fun _ => rfl) fun _ => trivial

theorem gives_checkCapacity (s : Stack) (n : Int) : Gives (fun _ => True) (s.checkCapacity n) := by
  unfold Stack.checkCapacity
  exact gives_ite (fun _ => rfl) fun _ => trivial

theorem gives_checkIndex (s : Stack) (i : Int) : Gives (fun _ => True) (s.checkIndex i) := by
  unfold Stack.checkIndex
  exact gives_ite (fun _ => rfl) fun _ => trivial

theorem gives_word? (hs : K.stack s) (i : Int) : Gives K.value (s.word? i) :=
  (gives_checkWord s i).bind fun _ _ => value_getD hs zero

theorem gives_top (hs : K.stack s) : Gives K.value s.top := by
  unfold Stack.top
  exact gives_ite (fun _ => rfl) fun _ => value_getD hs zero

theorem gives_topN (hs : K.stack s) (n : Int) : Gives K.values (s.topN n) := by
  unfold Stack.topN
  refine gives_ite (fun _ => rfl) fun _ => gives_ite (fun _ => rfl) fun _ => ?_
  exact values_words hs _ _

theorem gives_peek (hs : K.stack s) (n : Int) : Gives K.value (s.peek n) :=
  (gives_checkIndex s _).bind fun _ _ => value_getD hs zero

theorem gives_get (hs : K.stack s) (i : Int) : Gives K.value (s.get i) :=
  (gives_checkIndex s i).bind fun _ _ => value_getD hs zero

theorem gives_slice (hs : K.stack s) (low high : Int) : Gives K.values (s.slice low high) := by
  unfold Stack.slice
  exact gives_ite (fun _ => rfl) fun _ => values_words hs _ _

theorem gives_set (hs : K.stack s) (hv : K.value v) (i : Int) : Gives (K.stackOf s) (s.set i v) := by
  refine (gives_checkIndex s i).bind fun _ _ => ⟨rfl, rfl, fun w hw => ?_⟩
  rcases Array.mem_or_eq_of_mem_setIfInBounds hw with h | rfl
  · exact hs w h
  · exact hv

theorem gives_grow (hs : K.stack s) (n : Int) : Gives (K.stackOf s) (s.grow n) := by
  refine (gives_checkCapacity s _).bind fun _ _ => ?_
  split
  swap
  · exact ⟨rfl, rfl, hs⟩
  refine ⟨rfl, rfl, ?_⟩
  refine stack_appendAll hs fun v hv => ?_
  rw [(List.mem_replicate.mp hv).2]
  exact nil

theorem gives_insert (hs : K.stack s) (hv : K.value v) (i : Int) : Gives (K.stackOf s) (s.insert i v) := by
  unfold Stack.insert
  split
  · rfl
  refine (gives_checkCapacity s _).bind fun _ _ => ⟨rfl, rfl, fun w hw => ?_⟩
  rcases Stack.mem_storeAll hw with h | h | rfl
  · exact hs w h
  · exact values_cons hv (values_words hs _ _) w h
  · exact zero

theorem gives_remove (hs : K.stack s) (i : Int) :
    Gives (fun r => K.value r.1 ∧ K.stackOf s r.2) (s.remove i) := by
  refine (gives_checkIndex s i).bind fun _ _ => ⟨value_getD hs zero, rfl, rfl, fun w hw => ?_⟩
  rcases Array.mem_or_eq_of_mem_setIfInBounds hw with h | rfl
  · rcases Stack.mem_storeAll h with h | h | rfl
    · exact hs w h
    · exact values_words hs _ _ w h
    · exact zero
  · exact nil

theorem gives_copyWithin (hs : K.stack s) (source dest n : Int) :
    Gives (K.stackOf s) (s.copyWithin source dest n) := by
  unfold Stack.copyWithin
  refine gives_ite (fun _ => ⟨rfl, rfl, hs⟩) fun _ => gives_ite (fun _ => rfl) fun _ => gives_ite (fun _ => rfl) fun _ =>
    ⟨rfl, rfl, fun w hw => ?_⟩
  rcases Stack.mem_storeAll hw with h | h | rfl
  · exact hs w h
  · exact values_words hs _ _ w h
  · exact zero

/-! ## Checked payloads -/

theorem gives_asFixnum (v : Value) : Gives (fun _ => True) v.asFixnum :=
  gives_ite (fun _ => trivial) fun _ => rfl

theorem gives_asFloat (v : Value) : Gives (fun _ => True) v.asFloat := gives_ite (fun _ => trivial) fun _ => rfl

theorem gives_asSymbol (v : Value) : Gives (fun _ => True) v.asSymbol := gives_ite (fun _ => trivial) fun _ => rfl

theorem gives_asFrame (v : Value) : Gives (fun _ => True) v.asFrame := gives_ite (fun _ => trivial) fun _ => rfl

theorem gives_fixnum (n : Int) : Gives K.value (Value.fixnum n) := by
  unfold Value.fixnum Value.ofInt?
  split
  · rename_i v hv
    split at hv
    · cases hv
    · cases hv
      exact K.imm _ (Value.isRef_ofInt n)
  · rfl

theorem gives_function {m : Machine} (hm : K.machine m) (fn : FnId) : Gives K.function (m.functions.get fn) := by
  unfold FunctionTable.get FunctionTable.find?
  split
  · rename_i f hf
    split at hf
    · cases hf
    · exact hm.functions f (Array.mem_of_getElem? hf)
  · rfl

/-! ## The running thread -/

/-- The stack that is left by an operation, which leaves it as it was when it goes wrong. -/
def leftBy {α : Type} (f : Stack → Except Defect (α × Stack)) (s : Stack) : Stack :=
  ((f s).toOption.map Prod.snd).getD s

variable {Φ : ∀ {α : Type}, Known → Exec α → (Known → α → Prop) → Prop} (L : Logic Φ)

include L

/-- Changes the stack where it is. -/
theorem modifyStack {f : Stack → Stack} (hf : ∀ s, K.stack s → K.stackOf s (f s)) : Keeps Φ K (Exec.modifyStack f) := by
  refine L.adjust (fun _ _ => rfl) fun m hm => ?_
  obtain ⟨hid, hcap, hs⟩ := hf _ hm.context.stack
  exact ⟨⟨rfl, rfl, rfl, rfl, rfl, rfl, rfl, rfl, fun _ => rfl, fun h => h⟩, .of_stack _ rfl rfl rfl rfl,
    ⟨⟨rfl, rfl, rfl, rfl, hid⟩, hcap, rfl⟩, { hm with context := { hm.context with stack := hs } }, trivial⟩

theorem stack : Φ K Exec.stack (Same K K.stack) := L.look (fun _ _ => rfl) fun _ hm => L.ret hm.context.stack

omit L in
theorem apply_lift_ok {α : Type} (a : α) (m : Machine) : (liftM (.ok a : Except Defect α) : Exec α) m = .ok a m := rfl

omit L in
theorem apply_lift_error {α : Type} (d : Defect) (m : Machine) :
    (liftM (.error d : Except Defect α) : Exec α) m = .error d m := rfl

omit L in
/-- What is taken from the stack is taken from the stack that is changed. -/
theorem takeFromStack_eq {α : Type} (f : Stack → Except Defect (α × Stack)) : Exec.takeFromStack f = (do
    let s ← Exec.stack
    let r ← f s
    Exec.modifyStack (leftBy f)
    return r.1) := by
  funext m
  cases hf : f m.context.stack with
  | error d => simp [Exec.takeFromStack, Exec.stack, hf, apply_lift_error]
  | ok r => simp [Exec.takeFromStack, Exec.stack, Exec.setStack, Exec.modifyStack, leftBy, hf, apply_lift_ok, Except.toOption]

theorem takeFromStack {α : Type} {P : α → Prop} {f : Stack → Except Defect (α × Stack)}
    (hf : ∀ s, K.stack s → Gives (fun r => P r.1 ∧ K.stackOf s r.2) (f s)) :
    Φ K (Exec.takeFromStack f) (Same K P) := by
  rw [takeFromStack_eq]
  refine L.seq L.stack fun s hs => ?_
  refine L.seq (L.lift (hf s hs)) fun r hr => ?_
  refine L.seq (L.modifyStack fun s hs => ?_) fun _ _ => L.ret hr.1
  have h := hf s hs
  unfold leftBy
  cases hr : f s with
  | ok r =>
    rw [hr] at h
    exact h.2
  | error d => exact ⟨rfl, rfl, hs⟩

omit L in
theorem updateStack_eq (f : Stack → Except Defect Stack) :
    Exec.updateStack f = Exec.takeFromStack fun s => do return ((), ← f s) := by
  funext m
  cases hf : f m.context.stack with
  | error d => simp [Exec.updateStack, Exec.takeFromStack, Exec.stack, hf, apply_lift_error]
  | ok s => simp [Exec.updateStack, Exec.takeFromStack, Exec.stack, hf, apply_lift_ok]

theorem updateStack {f : Stack → Except Defect Stack} (hf : ∀ s, K.stack s → Gives (K.stackOf s) (f s)) :
    Keeps Φ K (Exec.updateStack f) := by
  rw [updateStack_eq]
  exact L.takeFromStack fun s hs => (hf s hs).bind fun s' hs' => ⟨trivial, hs'⟩

theorem push (hv : K.value v) : Keeps Φ K (Exec.push v) := by
  refine L.seq L.stack fun s _ => ?_
  refine L.seq (L.lift (gives_checkCapacity s _)) fun _ _ => ?_
  exact L.modifyStack fun _ hs => ⟨rfl, rfl, stack_append hs hv⟩

theorem pop : Φ K Exec.pop (Same K K.value) := by
  refine L.seq L.stack fun s hs => ?_
  refine L.seq (L.lift (gives_top hs)) fun v hv => ?_
  exact L.seq (L.modifyStack fun _ hs => ⟨rfl, rfl, stack_cut hs nil⟩) fun _ _ => L.ret hv

theorem popN (n : Int) : Φ K (Exec.popN n) (Same K K.values) := by
  refine L.seq L.stack fun s hs => ?_
  refine L.seq (L.lift (gives_topN hs n)) fun vs hvs => ?_
  exact L.seq (L.modifyStack fun _ hs => ⟨rfl, rfl, stack_cut hs zero⟩) fun _ _ => L.ret hvs

theorem height : Keeps Φ K Exec.height := L.seq L.stack fun _ _ => L.ret trivial

theorem grow (n : Int) : Keeps Φ K (Exec.grow n) := by
  refine L.seq L.stack fun s _ => ?_
  refine L.seq (L.lift (gives_checkCapacity s _)) fun _ _ => ?_
  split
  · refine L.modifyStack fun _ hs => ⟨rfl, rfl, stack_appendAll hs fun v hv => ?_⟩
    rw [(List.mem_replicate.mp hv).2]
    exact nil
  · exact L.updateStack fun _ hs => gives_grow hs n

theorem resize (n : Int) : Keeps Φ K (Exec.resize n) := by
  refine L.seq L.stack fun s _ => ?_
  dsimp only
  split
  · exact L.throw rfl
  split
  · exact L.grow _
  · exact L.modifyStack fun _ hs => ⟨rfl, rfl, stack_cut hs zero⟩

theorem extend (hv : K.values vs) : Keeps Φ K (Exec.extend vs) := by
  refine L.seq L.stack fun s _ => ?_
  refine L.seq (L.lift (gives_checkCapacity s _)) fun _ _ => ?_
  exact L.modifyStack fun _ hs => ⟨rfl, rfl, stack_appendAll hs hv⟩

theorem frame? : Keeps Φ K Exec.frame? := L.look (fun _ _ => rfl) fun _ _ => L.ret trivial

/-! ## Functions, names and output -/

theorem sequence (fn : FnId) : Φ K (Exec.sequence fn) (Same K K.code) := by
  refine L.look (fun _ _ => rfl) fun m hm => L.lift ?_
  refine (gives_function hm fn).bind fun f hf => ?_
  cases hb : f.body with
  | code seq => exact hf.code seq hb
  | _ => rfl

theorem function (fn : FnId) : Φ K (Exec.function fn) (Same K K.function) :=
  L.look (fun _ _ => rfl) fun _ hm => L.lift (gives_function hm fn)

theorem intern (name : String) : Keeps Φ K (Exec.intern name) := by
  refine L.adjust (fun _ _ => rfl) fun m hm => ⟨⟨rfl, rfl, rfl, rfl, rfl, rfl, rfl, rfl, fun _ => rfl, fun h => h.intern name⟩,
    .of_stack _ rfl rfl rfl rfl, .of_eq rfl rfl rfl rfl, ?_, trivial⟩
  exact { hm with }

theorem identName (i : Ident) : Keeps Φ K (Exec.identName i) := L.look (fun _ _ => rfl) fun _ _ => L.ret trivial

theorem write (text : String) : Keeps Φ K (Exec.write text) := by
  refine L.adjust (fun _ _ => rfl) fun m hm => ⟨⟨rfl, rfl, rfl, rfl, rfl, rfl, rfl, rfl, fun _ => rfl, fun h => h⟩,
    .of_stack _ rfl rfl rfl rfl, .of_eq rfl rfl rfl rfl, ?_, trivial⟩
  exact { hm with }

end Logic

/-! ## Frames and continuations -/

namespace CallLogic

open Known Logic

variable {K : Known} {v : Value} {Φ : ∀ {α : Type}, Known → Exec α → (Known → α → Prop) → Prop} (L : CallLogic Φ)

include L

/-- Changes what the running thread holds, but neither its stack nor what is left to be done. -/
theorem modifyContext (f : Context → Context)
    (hf : ∀ c, (f c).fiber = c.fiber ∧ (f c).stack = c.stack ∧ (f c).konts = c.konts)
    (blind : ∀ κ c, f (c.mapKonts κ) = (f c).mapKonts κ) (h : ∀ c, K.context c → K.context (f c)) :
    Keeps Φ K (modify fun m => { m with context := f m.context }) := by
  refine L.change (fun κ m => congrArg (fun c => ({ m.mapKonts κ with context := c } : Machine)) (blind κ m.context))
    fun m hm => ⟨⟨rfl, rfl, rfl, rfl, rfl, rfl, rfl, rfl, fun _ => rfl, fun h => h⟩, ⟨⟨rfl, rfl, rfl, (hf _).1,
      congrArg Stack.id (hf _).2.1⟩, congrArg Stack.capacity (hf _).2.1, (hf _).2.2⟩, ?_⟩
  exact { hm with context := h _ hm.context }

theorem setFrame (f : Option Nat) : Keeps Φ K (Exec.setFrame f) :=
  L.modifyContext (fun c => { c with frame := f }) (fun _ => ⟨rfl, rfl, rfl⟩) (fun _ _ => rfl) fun _ hc => { hc with }

theorem protect (hv : K.value v) : Keeps Φ K (Exec.protect v) :=
  L.modifyContext (fun c => { c with temps := v :: c.temps }) (fun _ => ⟨rfl, rfl, rfl⟩) (fun _ _ => rfl) fun _ hc =>
    { hc with temps := values_cons hv hc.temps }

theorem release : Keeps Φ K Exec.release :=
  L.modifyContext (fun c => { c with temps := c.temps.tail }) (fun _ => ⟨rfl, rfl, rfl⟩) (fun _ _ => rfl) fun _ hc =>
    { hc with temps := fun v hv => hc.temps v (List.mem_of_mem_tail hv) }

end CallLogic

end RubyMachine
