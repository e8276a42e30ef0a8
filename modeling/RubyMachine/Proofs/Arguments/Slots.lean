import RubyMachine.Machine.Arguments
import RubyMachine.Proofs.Scope.Moves

/-! The local slots of a callee while arguments are laid out in them. -/

namespace RubyMachine

/-! ## Runs of words -/

/-- The words of `f` with those of a list laid over them from `i` on. -/
def overlay (f : Nat → Value) (i : Nat) (vs : List Value) (j : Nat) : Value :=
  if i ≤ j ∧ j < i + vs.length then vs.getD (j - i) .nil else f j

section overlay

variable {f : Nat → Value} {i j : Nat} {v : Value} {vs : List Value}

@[simp] theorem overlay_nil : overlay f i [] = f := by
  funext j
  simp [overlay]

theorem overlay_cons : overlay (Function.update f i v) (i + 1) vs = overlay f i (v :: vs) := by
  funext j
  simp only [overlay, List.length_cons, Function.update_apply]
  rcases Nat.lt_trichotomy j i with h | rfl | h
  · rw [if_neg (by omega), if_neg (by omega), if_neg (by omega)]
  · rw [if_neg (by omega), if_pos rfl, if_pos (by omega), Nat.sub_self]
    rfl
  · by_cases hj : j < i + (vs.length + 1)
    · rw [if_pos (by omega), if_pos (by omega), show j - i = j - (i + 1) + 1 by omega, List.getD_cons_succ]
    · rw [if_neg (by omega), if_neg (by omega), if_neg (by omega)]

theorem overlay_of_lt (h : j < i) : overlay f i vs j = f j := if_neg (by omega)

theorem overlay_of_le (h : i + vs.length ≤ j) : overlay f i vs j = f j := if_neg (by omega)

theorem overlay_mem (h : j < vs.length) : overlay f i vs (i + j) = vs.getD j .nil := by
  rw [overlay, if_pos (by omega), Nat.add_sub_cancel_left]

theorem overlay_zero_mem (h : j < vs.length) : overlay f 0 vs j = vs.getD j .nil :=
  if_pos ⟨Nat.zero_le j, by rwa [Nat.zero_add]⟩

theorem overlay_replicate {n : Nat} (hi : i ≤ j) (hj : j < i + n) (v : Value) :
    overlay f i (List.replicate n v) j = v := by
  rw [overlay, if_pos (by rw [List.length_replicate]; exact ⟨hi, hj⟩), List.getD_eq_getElem?_getD,
    List.getElem?_replicate_of_lt (by omega), Option.getD_some]

end overlay

namespace Stack

theorem getD_storeAll_eq (a : Array Value) (i j : Nat) (vs : List Value) :
    (storeAll a i vs).getD j .zero = overlay (fun j => a.getD j .zero) i vs j := by
  induction vs generalizing a i with
  | nil => rw [overlay_nil, storeAll]
  | cons v vs ih =>
    rw [storeAll, ih, ← overlay_cons]
    congr 1
    funext k
    rw [getD_store, Function.update_apply]

theorem getElem?_words {s : Stack} {i n j : Nat} (h : i + n ≤ s.slots.size) (hj : j < n) :
    (s.words i n)[j]? = some (s.slots.getD (i + j) .zero) := by
  rw [words, Array.getElem?_toList, Array.getElem?_extract, if_pos (by omega), Array.getD_eq_getD_getElem?,
    Array.getElem?_eq_getElem (by omega), Option.getD_some]

end Stack

/-! ## The machine while its callee is laid out -/

namespace Machine

variable {m m₁ m₂ : Machine} {low size : Nat} {f g : Nat → Value} {v : Value} {vs : List Value}

/-- The machine with words of a list in the slots from `i` on. -/
def pokeAll (m : Machine) (i : Nat) : List Value → Machine
  | [] => m
  | v :: vs => (m.poke i v).pokeAll (i + 1) vs

/-- The second machine is the first with the words `f` in the slots from `low` up to the end of the stack, and with
new objects. -/
structure Lays (m m₁ : Machine) (low size : Nat) (f : Nat → Value) : Prop where
  rest : m₁.withMemory m = m
  len : m₁.context.stack.len = low + size
  capacity : m₁.context.stack.capacity = m.context.stack.capacity
  below : ∀ i < low, m₁.slot i = m.slot i
  slot : ∀ i < size, m₁.slot (low + i) = f i
  inv : m₁.heap.Inv
  objects : m.KeepsObjects m₁

namespace Lays

theorem poke (h : Lays m m₁ low size f) (i : Nat) (v : Value) :
    Lays m (m₁.poke (low + i) v) low size (Function.update f i v) where
  rest := h.rest
  len := h.len
  capacity := h.capacity
  below j hj := by
    rw [slot_poke, if_neg (by omega), h.below j hj]
  slot j hj := by
    rw [slot_poke, Function.update_apply]
    by_cases he : j = i
    · rw [if_pos (by omega), if_pos he]
    · rw [if_neg (by omega), if_neg he, h.slot j hj]
  inv := h.inv
  objects := h.objects

theorem congr (h : Lays m m₁ low size f) (hf : ∀ i < size, f i = g i) : Lays m m₁ low size g :=
  { h with slot := fun i hi => (h.slot i hi).trans (hf i hi) }

theorem pokeAll (h : Lays m m₁ low size f) {i : Nat} (hi : i + vs.length ≤ size) :
    Lays m (m₁.pokeAll (low + i) vs) low size (overlay f i vs) := by
  induction vs generalizing m₁ f i with
  | nil => rwa [overlay_nil]
  | cons v vs ih =>
    rw [List.length_cons] at hi
    rw [← overlay_cons, Machine.pokeAll, Nat.add_assoc]
    exact ih (h.poke i v) (by omega)

/-- More objects. -/
theorem grow (h : Lays m m₁ low size f) {hp : Heap Object} (hi : hp.Inv) (ho : m₁.KeepsObjects (m₁.withHeap hp)) :
    Lays m (m₁.withHeap hp) low size f where
  rest := h.rest
  len := h.len
  capacity := h.capacity
  below := h.below
  slot := h.slot
  inv := hi
  objects := h.objects.trans ho

end Lays

theorem capacity_pokeAll (m : Machine) (i : Nat) (vs : List Value) :
    (m.pokeAll i vs).context.stack.capacity = m.context.stack.capacity := by
  induction vs generalizing m i with
  | nil => rfl
  | cons v vs ih => rw [Machine.pokeAll, ih]; rfl

theorem heap_pokeAll (m : Machine) (i : Nat) (vs : List Value) : (m.pokeAll i vs).heap = m.heap := by
  induction vs generalizing m i with
  | nil => rfl
  | cons v vs ih => rw [Machine.pokeAll, ih]; rfl

theorem pokeAll_concat (m : Machine) (i : Nat) (vs : List Value) (v : Value) :
    m.pokeAll i (vs ++ [v]) = (m.pokeAll i vs).poke (i + vs.length) v := by
  induction vs generalizing m i with
  | nil => rfl
  | cons w vs ih =>
    rw [List.cons_append, Machine.pokeAll, ih, Machine.pokeAll, List.length_cons, Nat.add_right_comm, Nat.add_assoc]

end Machine

namespace Exec

open Machine

variable {m m₁ : Machine} {low size : Nat} {f : Nat → Value} {v : Value} {vs : List Value}

/-! ## Writing slots -/

theorem set_apply {i : Nat} (hi : i < size) (hc : low + size ≤ m.context.stack.capacity) (v : Value) :
    (Locals.mk low size).set i v m = .ok () (m.poke (low + i) v) := by
  rw [Locals.set, if_neg (by dsimp only; omega)]
  exact setWord_apply (k := low + i) rfl (by omega)

theorem setFrom_apply {i : Nat} (hc : low + i + vs.length ≤ m.context.stack.capacity) :
    (Locals.mk low size).setFrom i vs m = .ok () (m.pokeAll (low + i) vs) := by
  induction vs generalizing m i with
  | nil => rfl
  | cons v vs ih =>
    rw [List.length_cons] at hc
    have hset : setWord ((low : Int) + i) v m = .ok () (m.poke (low + i) v) := setWord_apply rfl (by omega)
    have hc' : low + (i + 1) + vs.length ≤ (m.poke (low + i) v).context.stack.capacity := by
      rw [show (m.poke (low + i) v).context.stack.capacity = m.context.stack.capacity from rfl]
      omega
    exact (bind_of_ok hset).trans (ih hc')

theorem copy_apply {i j : Nat} (hij : i ≤ j) (hc : low + j ≤ m.context.stack.capacity) :
    (Locals.mk low size).copy i j vs m = .ok () (m.pokeAll (low + i) (vs.take (j - i))) := by
  have hs : Exec.stack m = .ok m.context.stack m := rfl
  rw [Locals.copy, bind_of_ok hs, if_neg (by dsimp only; omega), show ((j : Int) - i).toNat = j - i by omega]
  refine setFrom_apply ?_
  have := List.length_take_le (j - i) vs
  omega

theorem forM_set {i : Nat} (n : Nat) (hi : i + n ≤ size) (hc : low + size ≤ m.context.stack.capacity) :
    ((List.range n).forM fun (k : Nat) => (Locals.mk low size).set (i + k) .uninit) m =
      .ok () (m.pokeAll (low + i) (List.replicate n .uninit)) := by
  induction n with
  | zero => rfl
  | succ n ih =>
    have hlast := set_apply (m := m.pokeAll (low + i) (List.replicate n .uninit)) (show i + n < size by omega)
      (by rwa [capacity_pokeAll]) .uninit
    rw [Nat.cast_add] at hlast
    rw [List.forM_eq_forM] at ih ⊢
    rw [List.range_succ, List.forM_append, bind_of_ok (ih (by omega)), List.replicate_succ', pokeAll_concat,
      List.length_replicate, Nat.add_assoc, List.forM_cons, bind_of_ok hlast, List.forM_nil]
    rfl

theorem unset_apply {i j : Nat} (hj : j ≤ size) (hc : low + size ≤ m.context.stack.capacity) :
    (Locals.mk low size).unset i j m = .ok () (m.pokeAll (low + i) (List.replicate (j - i) .uninit)) := by
  rw [Locals.unset, if_neg (by dsimp only; omega), show ((j : Int) - i).toNat = j - i by omega]
  rcases Nat.le_total i j with h | h
  · exact forM_set (j - i) (by omega) hc
  · rw [Nat.sub_eq_zero_of_le h]
    rfl

/-! ## Resizing -/

/-- The stack ends at `n`; its new slots are nil. -/
structure Resized (m m₁ : Machine) (n : Nat) : Prop where
  rest : m₁.withMemory m = m
  heap : m₁.heap = m.heap
  len : m₁.context.stack.len = n
  capacity : m₁.context.stack.capacity = m.context.stack.capacity
  slot : ∀ i < n, m₁.slot i = if i < m.context.stack.len then m.slot i else .nil

theorem check_apply {n : Int} (h : n ≤ m.context.stack.capacity) :
    (liftM (m.context.stack.checkCapacity n) : Exec Unit) m = .ok () m := by
  rw [Stack.checkCapacity, if_neg (by omega)]
  rfl

theorem grow_resized {n : Nat} (h : m.context.stack.len + n ≤ m.context.stack.capacity) :
    ∃ m₁, grow n m = .ok () m₁ ∧ Resized m m₁ (m.context.stack.len + n) := by
  refine ⟨{ m with context.stack := m.context.stack.appendAll (List.replicate n .nil) }, ?_, ?_⟩
  · rw [grow, bind_of_ok (show Exec.stack m = .ok m.context.stack m from rfl), bind_of_ok (check_apply (by omega)),
      if_pos (by omega), Int.toNat_natCast]
    rfl
  · constructor
    · rfl
    · rfl
    · simp [Stack.appendAll]
    · rfl
    · intro i hi
      simp only [slot, Stack.appendAll, Stack.getD_storeAll_eq]
      split_ifs with h
      · rw [overlay_of_lt h]
      · obtain ⟨k, rfl⟩ := Nat.exists_eq_add_of_le (Nat.not_lt.1 h)
        rw [overlay_replicate (by omega) (by omega)]

theorem resize_resized {n : Nat} (h : n ≤ m.context.stack.capacity) :
    ∃ m₁, resize n m = .ok () m₁ ∧ Resized m m₁ n := by
  have hs : Exec.stack m = .ok m.context.stack m := rfl
  rcases Nat.lt_or_ge m.context.stack.len n with hlt | hge
  · obtain ⟨k, rfl⟩ := Nat.exists_eq_add_of_lt hlt
    obtain ⟨m₁, hrun, hr⟩ := grow_resized (m := m) (n := k + 1) (by omega)
    refine ⟨m₁, ?_, hr⟩
    rw [resize, bind_of_ok hs, if_neg (by omega), if_pos (by omega), ← hrun]
    congr 1
    omega
  · refine ⟨{ m with context.stack := m.context.stack.cut n .zero }, ?_, ?_⟩
    · rw [resize, bind_of_ok hs]
      dsimp only
      rw [if_neg (by omega), if_neg (by omega),
        Int.toNat_natCast]
      rfl
    · constructor
      · rfl
      · rfl
      · simp [Stack.cut, hge]
      · rfl
      · intro i hi
        rw [if_pos (by omega)]
        exact Stack.getD_wipe _ _ _ hi

end Exec

end RubyMachine
