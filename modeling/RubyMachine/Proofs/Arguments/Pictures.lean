import RubyMachine.Proofs.Arguments.Binding

/-! Machines that differ in their stack only, by the picture of it: its length and every word that is stored. Arguments
that are cut off, added or spread change the picture in known ways (`spreadArray_cases`). -/

namespace RubyMachine

open Exec Machine Code

/-! ## Stacks as pictures -/

namespace Stack

/-- What can be told of a stack: its length, how many slots are stored, and what is in them. -/
structure Holds (s s' : Stack) (len size : Nat) (f : Nat → Value) : Prop where
  id : s'.id = s.id
  capacity : s'.capacity = s.capacity
  len : s'.len = len
  size : s'.slots.size = size
  slot : ∀ i, s'.slots.getD i .zero = f i

variable {s s₁ s₂ : Stack} {len size n i : Nat} {f g : Nat → Value} {vs : List Value}

namespace Holds

/-- The picture determines the stack. -/
theorem unique (h₁ : s.Holds s₁ len size f) (h₂ : s.Holds s₂ len size f) : s₁ = s₂ := by
  have hslots : s₁.slots = s₂.slots := by
    refine Array.ext (h₁.size.trans h₂.size.symm) fun i hi₁ hi₂ => ?_
    have h := (h₁.slot i).trans (h₂.slot i).symm
    rwa [Array.getD_eq_getD_getElem?, Array.getD_eq_getD_getElem?, Array.getElem?_eq_getElem hi₁,
      Array.getElem?_eq_getElem hi₂] at h
  have hid := h₁.id.trans h₂.id.symm
  have hcapacity := h₁.capacity.trans h₂.capacity.symm
  have hlen := h₁.len.trans h₂.len.symm
  cases s₁
  cases s₂
  cases hslots
  cases hid
  cases hcapacity
  cases hlen
  rfl

theorem refl (s : Stack) : s.Holds s s.len s.slots.size fun i => s.slots.getD i .zero := ⟨rfl, rfl, rfl, rfl, fun _ => rfl⟩

theorem congr (h : s.Holds s₁ len size f) (hf : ∀ i, f i = g i) : s.Holds s₁ len size g :=
  { h with slot := fun i => (h.slot i).trans (hf i) }

end Holds

theorem getD_wipe_zero (a : Array Value) (i n j : Nat) :
    (wipe a i .zero n).getD j .zero = if i ≤ j ∧ j < i + n then .zero else a.getD j .zero := by
  induction n generalizing a i with
  | zero => rw [wipe, if_neg (by omega)]
  | succ n ih =>
    have hset : (a.setIfInBounds i .zero).getD j .zero = if i = j then .zero else a.getD j .zero := by
      simp only [Array.getD_eq_getD_getElem?, Array.getElem?_setIfInBounds]
      by_cases he : i = j
      · rw [if_pos he, if_pos he]
        split <;> rfl
      · rw [if_neg he, if_neg he]
    rw [wipe, ih, hset, ← ite_or]
    exact if_congr (by omega) rfl rfl

theorem size_store (a : Array Value) (i : Nat) (v : Value) : (store a i v).size = max a.size (i + 1) := by
  unfold store
  split <;> simp <;> omega

theorem size_storeAll (a : Array Value) (i : Nat) (vs : List Value) (h : i ≤ a.size) :
    (storeAll a i vs).size = max a.size (i + vs.length) := by
  induction vs generalizing a i with
  | nil => simpa [storeAll] using h
  | cons v vs ih =>
    rw [storeAll, ih _ _ (lt_size_store a i v), size_store, List.length_cons]
    omega

theorem Holds.cut (h : s.Holds s₁ len size f) (hn : n ≤ len) :
    s.Holds (s₁.cut n .zero) n size fun i => if n ≤ i ∧ i < len then .zero else f i where
  id := h.id
  capacity := h.capacity
  len := by
    show min n s₁.len = n
    rw [h.len, Nat.min_eq_left hn]
  size := by
    show (wipe _ _ _ _).size = size
    rw [size_wipe, h.size]
  slot i := by
    show (wipe _ _ _ _).getD i .zero = _
    rw [getD_wipe_zero, h.slot, h.len, Nat.add_sub_cancel' hn]

theorem Holds.appendAll (h : s.Holds s₁ len size f) (vs : List Value) :
    s.Holds (s₁.appendAll vs) (len + vs.length) (max size (len + vs.length)) (overlay f len vs) where
  id := h.id
  capacity := h.capacity
  len := congrArg (· + vs.length) h.len
  size := by
    show (storeAll _ _ _).size = _
    rw [size_storeAll _ _ _ s₁.len_le, h.len, h.size]
  slot i := by
    show (storeAll _ _ _).getD i .zero = _
    rw [getD_storeAll_eq, h.len]
    exact congrArg (overlay · len vs i) (funext h.slot)

end Stack

/-! ## Machines with another stack -/

namespace Machine

variable {m m₁ : Machine} {len size low n i : Nat} {f : Nat → Value} {vs : List Value}

/-- The machine is another one but for its stack, of which the picture is given. -/
structure Holds (m m₁ : Machine) (len size : Nat) (f : Nat → Value) : Prop where
  rest : m₁.withStack m.context.stack = m
  stack : m.context.stack.Holds m₁.context.stack len size f

/-- The arguments are the top of the stack. -/
structure Passes (m : Machine) (low argc : Nat) : Prop where
  len : m.context.stack.len = low + argc
  room : low + argc ≤ m.context.stack.capacity
  small : m.context.stack.capacity + 1 < 2 ^ 63

namespace Holds

theorem refl (m : Machine) : m.Holds m m.context.stack.len m.context.stack.slots.size m.slot := ⟨rfl, .refl _⟩

theorem unique {m₂ : Machine} (h₁ : m.Holds m₁ len size f) (h₂ : m.Holds m₂ len size f) : m₁ = m₂ := by
  have hs := h₁.stack.unique h₂.stack
  have hm : m₁.withStack m.context.stack = m₂.withStack m.context.stack := h₁.rest.trans h₂.rest.symm
  calc m₁ = (m₁.withStack m.context.stack).withStack m₁.context.stack := rfl
    _ = (m₂.withStack m.context.stack).withStack m₂.context.stack := by rw [hm, hs]
    _ = m₂ := rfl

theorem congr {g : Nat → Value} (h : m.Holds m₁ len size f) (hf : ∀ i, f i = g i) : m.Holds m₁ len size g :=
  { h with stack := h.stack.congr hf }

theorem poke (h : m.Holds m₁ len size f) (hi : i < size) (v : Value) :
    m.Holds (m₁.poke i v) len size (Function.update f i v) where
  rest := h.rest
  stack := {
    id := h.stack.id
    capacity := h.stack.capacity
    len := h.stack.len
    size := by
      show (Stack.store _ _ _).size = _
      rw [Stack.size_store, h.stack.size]
      omega
    slot := fun j => by
      show (m₁.poke i v).slot j = _
      rw [slot_poke, Function.update_apply]
      exact if_congr Iff.rfl rfl (h.stack.slot j) }

theorem pokeAll (h : m.Holds m₁ len size f) (hi : i + vs.length ≤ size) :
    m.Holds (m₁.pokeAll i vs) len size (overlay f i vs) := by
  induction vs generalizing m₁ f i with
  | nil => rwa [overlay_nil]
  | cons v vs ih =>
    rw [List.length_cons] at hi
    rw [← overlay_cons]
    exact ih (h.poke (by omega) v) (by omega)

end Holds

end Machine

namespace Exec

variable {m m₁ : Machine} {len size low n : Nat} {f : Nat → Value}

theorem resize_cut (h : m.Holds m₁ len size f) (hn : n ≤ len) : ∃ m₂, resize n m₁ = .ok () m₂ ∧
    m.Holds m₂ n size fun i => if n ≤ i ∧ i < len then .zero else f i := by
  refine ⟨m₁.withStack (m₁.context.stack.cut n .zero), ?_, h.rest, h.stack.cut hn⟩
  have hlen := h.stack.len
  rw [resize, bind_of_ok (show Exec.stack m₁ = .ok m₁.context.stack m₁ from rfl), if_neg (by omega),
    if_neg (by omega), Int.toNat_natCast]
  rfl

/-- Words are added to the stack, unless there are too many of them. -/
theorem extend_cases (h : m.Holds m₁ len size f) (vs : List Value) :
    (len + vs.length ≤ m.context.stack.capacity → ∃ m₂, extend vs m₁ = .ok () m₂ ∧
      m.Holds m₂ (len + vs.length) (max size (len + vs.length)) (overlay f len vs)) ∧
    (m.context.stack.capacity < len + vs.length →
      extend vs m₁ = .error (.stackOverflow (len + vs.length : Nat) m.context.stack.capacity) m₁) := by
  have hs : Exec.stack m₁ = .ok m₁.context.stack m₁ := rfl
  have hlen := h.stack.len
  have hcapacity := h.stack.capacity
  refine ⟨fun hroom => ⟨m₁.withStack (m₁.context.stack.appendAll vs), ?_, h.rest, h.stack.appendAll vs⟩, fun hfull => ?_⟩
  · rw [extend, bind_of_ok hs, bind_of_ok (check_apply (by omega))]
    rfl
  · have hcheck : (liftM (m₁.context.stack.checkCapacity (m₁.context.stack.len + (vs.length : Int))) : Exec Unit) m₁ =
        .error (.stackOverflow (len + vs.length : Nat) m.context.stack.capacity) m₁ := by
      rw [Stack.checkCapacity, if_pos (by omega), hlen, hcapacity, ← Nat.cast_add]
      rfl
    rw [extend, bind_of_ok hs, bind_of_error hcheck]

theorem grow_eq (n : Nat) : grow n = extend (List.replicate n .nil) := by
  funext m
  rw [grow, extend, List.length_replicate]
  refine congrArg (fun g => (Exec.stack >>= g) m) (funext fun s => ?_)
  rw [if_pos (by omega), Int.toNat_natCast]

/-- A stack is made longer. -/
theorem resize_cases (h : m.Holds m₁ len size f) (hsize : len ≤ size) (hn : len ≤ n) (hlen : len ≤ m.context.stack.capacity) :
    (n ≤ m.context.stack.capacity → ∃ m₂, resize n m₁ = .ok () m₂ ∧
      m.Holds m₂ n (max size n) (overlay f len (List.replicate (n - len) .nil))) ∧
    (m.context.stack.capacity < n → resize n m₁ = .error (.stackOverflow n m.context.stack.capacity) m₁) := by
  have hl := h.stack.len
  rcases Nat.eq_or_lt_of_le hn with rfl | hlt
  · refine ⟨fun _ => ?_, fun hfull => by omega⟩
    obtain ⟨m₂, hrun, h₂⟩ := resize_cut h le_rfl
    refine ⟨m₂, hrun, ?_⟩
    rw [Nat.max_eq_left hsize, Nat.sub_self, List.replicate_zero, overlay_nil]
    exact h₂.congr fun i => if_neg (by omega)
  · obtain ⟨k, rfl⟩ := Nat.exists_eq_add_of_le hn
    have hgrow : resize (len + k : Nat) m₁ = extend (List.replicate k .nil) m₁ := by
      rw [resize, bind_of_ok (show Exec.stack m₁ = .ok m₁.context.stack m₁ from rfl), if_neg (by omega),
        if_pos (by omega), ← grow_eq]
      congr 1
      omega
    rw [hgrow, Nat.add_sub_cancel_left]
    have hcases := extend_cases h (List.replicate k .nil)
    rwa [List.length_replicate] at hcases

/-! ## Spreading -/

theorem deref_error {v : Value} {d : Defect} (hv : v.isRef = true) (hr : m.heap.read v.toRef = .error d) :
    deref v m = .error d m := by
  unfold deref Value.asRef
  rw [if_pos hv]
  show (liftM (m.heap.read v.toRef) : Exec Object) m = _
  rw [hr]
  rfl

/-- Looking for an array changes nothing. -/
theorem asArray?_cases (v : Value) (m : Machine) :
    asArray? v m = .ok none m ∨
    (∃ a, asArray? v m = .ok (some a) m ∧ v.isRef = true ∧ m.heap.read v.toRef = .ok (.array a)) ∨
    ∃ d, asArray? v m = .error d m := by
  cases hv : v.isRef with
  | false =>
    refine .inl ?_
    rw [asArray?, deref?, hv]
    rfl
  | true =>
    cases hr : m.heap.read v.toRef with
    | error d =>
      refine .inr (.inr ⟨d, bind_of_error ?_⟩)
      rw [deref?, if_pos hv, bind_of_error (deref_error hv hr)]
    | ok o =>
      rw [asArray?, bind_of_ok (deref?_of_read hv hr)]
      cases o with
      | array a => exact .inr (.inl ⟨a, rfl, rfl, rfl⟩)
      | _ => exact .inl rfl

/-- The elements of an array in the place of the arguments. -/
theorem spread_cases (hm : m.Passes low n) (elems : Array Value) :
    (low + elems.size ≤ m.context.stack.capacity → ∃ m₁,
      (do resize low; extend elems.toList; return (elems.size : Int) : Exec Int) m = .ok (elems.size : Int) m₁ ∧
      m₁.Passes low elems.size ∧ m.Holds m₁ (low + elems.size) (max m.context.stack.slots.size (low + elems.size))
        (overlay (fun i => if low ≤ i ∧ i < m.context.stack.len then .zero else m.slot i) low elems.toList)) ∧
    (m.context.stack.capacity < low + elems.size → ∃ d m₁,
      (do resize low; extend elems.toList; return (elems.size : Int) : Exec Int) m = .error d m₁) := by
  have hlen := hm.len
  obtain ⟨m₁, hcut, h₁⟩ := resize_cut (.refl m) (n := low) (by omega)
  obtain ⟨hroom, hfull⟩ := extend_cases h₁ elems.toList
  rw [Array.length_toList] at hroom hfull
  rw [bind_of_ok hcut]
  refine ⟨fun hr => ?_, fun hf => ⟨_, m₁, bind_of_error (hfull hf)⟩⟩
  obtain ⟨m₂, hrun, h₂⟩ := hroom hr
  have hcapacity := h₂.stack.capacity
  refine ⟨m₂, bind_of_ok hrun, ⟨h₂.stack.len, ?_, ?_⟩, h₂⟩
  · omega
  · have := hm.small
    omega

/-- Only a single argument for several parameters is looked at. -/
theorem spreadArray_eq (hm : m.Passes low n) (p : Params) (kw : Value) :
    spreadArray p low n kw m = if n = 1 ∧ p.spreads ∧ kw.isNil then (do
        match ← asArray? (m.slot low) with
        | some elems =>
          resize low
          extend elems.toList
          return (elems.size : Int)
        | none => return (n : Int) : Exec Int) m
      else .ok (n : Int) m := by
  have hlen := hm.len
  unfold spreadArray
  by_cases hs : n = 1 ∧ p.spreads ∧ kw.isNil
  · have hget : (liftM (m.context.stack.get low) : Exec Value) m = .ok (m.slot low) m := by
      rw [Stack.get, Stack.checkIndex, if_neg (by omega), Int.toNat_natCast]
      rfl
    rw [if_pos (by exact_mod_cast hs), if_pos hs]
    exact (bind_of_ok (show Exec.stack m = .ok m.context.stack m from rfl)).trans (bind_of_ok hget)
  · rw [if_neg (by exact_mod_cast hs), if_neg hs]
    rfl

end Exec

end RubyMachine
