import RubyMachine.Defect
import RubyMachine.Number.Word

/-! The value stack: a fixed number of slots, of which the first `len` are live.

Slots above the live part keep what was left in them, because frames look at memory without regard
to the stack's length. A slot that was never written holds the word zero and is not stored.

A stack is changed where it is: whatever is written to it, it stays the same stack. -/

namespace RubyMachine

structure Stack where
  /-- Tells stacks apart that hold the same. -/
  id : Nat := 0
  /-- The slots written so far. -/
  slots : Array Value
  len : Nat
  capacity : Nat
  len_le : len ≤ slots.size

namespace Stack

def defaultCapacity : Nat := 8192

def empty (capacity : Int) (id : Nat := 0) : Stack where
  id := id
  slots := #[]
  len := 0
  capacity := if capacity ≤ 0 then defaultCapacity else capacity.toNat
  len_le := Nat.le_refl 0

/-- The live slots, bottom first. -/
def toList (s : Stack) : List Value := s.slots.toList.take s.len

/-! ## Memory -/

def checkWord (s : Stack) (i : Int) : Except Defect Unit :=
  if i < 0 ∨ (s.capacity : Int) ≤ i then .error .fault else .ok ()

/-- The word in slot `i`, live or not. -/
def word? (s : Stack) (i : Int) : Except Defect Value := do
  s.checkWord i
  return s.slots.getD i.toNat .zero

/-- Writes slot `i` of an array that is taken to go on with zero words. -/
def store (a : Array Value) (i : Nat) (v : Value) : Array Value :=
  if i < a.size then a.setIfInBounds i v
  else (a ++ Array.replicate (i - a.size) Value.zero).push v

theorem size_le_store (a : Array Value) (i : Nat) (v : Value) : a.size ≤ (store a i v).size := by
  unfold store; split <;> simp

theorem lt_size_store (a : Array Value) (i : Nat) (v : Value) : i < (store a i v).size := by
  unfold store; split <;> simp <;> omega

/-- Writes a slot, live or not. -/
def poke (s : Stack) (i : Nat) (v : Value) : Stack :=
  { s with
    slots := store s.slots i v
    len_le := Nat.le_trans s.len_le (size_le_store ..) }

def setWord (s : Stack) (i : Int) (v : Value) : Except Defect Stack := do
  s.checkWord i
  return s.poke i.toNat v

/-- Overwrites `n` slots from `i` on, as far as they are stored. -/
def wipe (a : Array Value) (i : Nat) (v : Value) : Nat → Array Value
  | 0 => a
  | n + 1 => wipe (a.setIfInBounds i v) (i + 1) v n

@[simp] theorem size_wipe (a : Array Value) (i : Nat) (v : Value) (n : Nat) :
    (wipe a i v n).size = a.size := by
  induction n generalizing a i with
  | zero => rfl
  | succ n ih => simp [wipe, ih]

/-- Writes the values of a list into consecutive slots. -/
def storeAll (a : Array Value) (i : Nat) : List Value → Array Value
  | [] => a
  | v :: vs => storeAll (store a i v) (i + 1) vs

theorem size_le_storeAll (a : Array Value) (i : Nat) (vs : List Value) :
    a.size ≤ (storeAll a i vs).size := by
  induction vs generalizing a i with
  | nil => exact Nat.le_refl _
  | cons v vs ih => exact Nat.le_trans (size_le_store a i v) (ih ..)

theorem add_le_size_storeAll (a : Array Value) (i : Nat) (vs : List Value) (h : i ≤ a.size) :
    i + vs.length ≤ (storeAll a i vs).size := by
  induction vs generalizing a i with
  | nil => simpa [storeAll] using h
  | cons v vs ih =>
    have := ih (store a i v) (i + 1) (lt_size_store a i v)
    simp only [storeAll, List.length_cons]; omega

/-! ## The live part

Changes that always succeed. The operations below check first and then make one of them. -/

def append (s : Stack) (v : Value) : Stack :=
  { s with
    slots := store s.slots s.len v
    len := s.len + 1
    len_le := lt_size_store .. }

def appendAll (s : Stack) (vs : List Value) : Stack :=
  { s with
    slots := storeAll s.slots s.len vs
    len := s.len + vs.length
    len_le := add_le_size_storeAll s.slots s.len vs s.len_le }

/-- Leaves the live slots below `n`, and clears the others with `v`. -/
def cut (s : Stack) (n : Nat) (v : Value) : Stack :=
  { s with
    slots := wipe s.slots n v (s.len - n)
    len := min n s.len
    len_le := by have := s.len_le; simp; omega }

/-! ## Operations -/

def checkCapacity (s : Stack) (n : Int) : Except Defect Unit :=
  if (s.capacity : Int) < n then .error (.stackOverflow n s.capacity) else .ok ()

def checkIndex (s : Stack) (i : Int) : Except Defect Unit :=
  if i < 0 ∨ (s.len : Int) ≤ i then .error (.stackIndex i s.len) else .ok ()

/-- Empties the stack, clearing its live slots. -/
def reset (s : Stack) : Stack :=
  { s with slots := wipe s.slots 0 .zero s.len, len := 0, len_le := Nat.zero_le _ }

def push (s : Stack) (v : Value) : Except Defect Stack := do
  s.checkCapacity (s.len + 1)
  return s.append v

def top (s : Stack) : Except Defect Value :=
  if s.len = 0 then .error .stackUnderflow else .ok (s.slots.getD (s.len - 1) .zero)

def pop (s : Stack) : Except Defect (Value × Stack) := do
  let v ← s.top
  return (v, s.cut (s.len - 1) .nil)

/-- The `n` slots from `i` on. -/
def words (s : Stack) (i n : Nat) : List Value := (s.slots.extract i (i + n)).toList

theorem length_words (s : Stack) (i n : Nat) (h : i + n ≤ s.slots.size) :
    (s.words i n).length = n := by
  rw [words, Array.length_toList, Array.size_extract]; omega

/-- The top `n` values, in the order they were pushed. -/
def topN (s : Stack) (n : Int) : Except Defect (List Value) :=
  if (s.len : Int) < n then .error (.stackPop n s.len)
  else if n < 0 then .error .fault
  else .ok (s.words (s.len - n.toNat) n.toNat)

/-- Takes the top `n` values off. -/
def popN (s : Stack) (n : Int) : Except Defect (List Value × Stack) := do
  let vs ← s.topN n
  return (vs, s.cut (s.len - n.toNat) .zero)

/-- The value `n` slots below the top. -/
def peek (s : Stack) (n : Int) : Except Defect Value := do
  s.checkIndex (s.len - 1 - n)
  return s.slots.getD (s.len - 1 - n : Int).toNat .zero

def get (s : Stack) (i : Int) : Except Defect Value := do
  s.checkIndex i
  return s.slots.getD i.toNat .zero

def set (s : Stack) (i : Int) (v : Value) : Except Defect Stack := do
  s.checkIndex i
  return { s with
    slots := s.slots.setIfInBounds i.toNat v
    len_le := by simpa using s.len_le }

/-- Appends `n` nil slots. The new length is a word of 64 bits; if it is smaller than the old one, the stack ends
there, at zero when it is negative. -/
def grow (s : Stack) (n : Int) : Except Defect Stack := do
  let top := Number.wrap (s.len + n)
  s.checkCapacity top
  if h : (s.len : Int) ≤ top then return s.appendAll (List.replicate (top - s.len).toNat .nil)
  else return { s with len := top.toNat, len_le := by have := s.len_le; omega }

/-- Sets the length; new slots are nil and dropped ones are cleared. -/
def resize (s : Stack) (n : Int) : Except Defect Stack :=
  if n < 0 then .error (.stackLength n)
  else if (s.len : Int) < n then s.grow (n - s.len)
  else .ok (s.cut n.toNat .zero)

/-- Puts `v` at index `i` and shifts what was there and above up by one. -/
def insert (s : Stack) (i : Int) (v : Value) : Except Defect Stack :=
  if h : i < 0 ∨ (s.len : Int) < i then .error (.stackInsert i s.len)
  else do
    s.checkCapacity (s.len + 1)
    return { s with
      slots := storeAll s.slots i.toNat (v :: s.words i.toNat (s.len - i.toNat))
      len := s.len + 1
      len_le := by
        have := s.len_le
        have hi := add_le_size_storeAll s.slots i.toNat (v :: s.words i.toNat (s.len - i.toNat))
          (by omega)
        rw [List.length_cons, length_words s i.toNat (s.len - i.toNat) (by omega)] at hi
        omega }

/-- Takes the value at index `i` out and shifts those above down by one. -/
def remove (s : Stack) (i : Int) : Except Defect (Value × Stack) := do
  s.checkIndex i
  let rest := s.words (i.toNat + 1) (s.len - i.toNat - 1)
  return (s.slots.getD i.toNat .zero, { s with
    slots := (storeAll s.slots i.toNat rest).setIfInBounds (s.len - 1) .nil
    len := s.len - 1
    len_le := by
      have := s.len_le
      have := size_le_storeAll s.slots i.toNat rest
      simp; omega })

def extend (s : Stack) (vs : List Value) : Except Defect Stack := do
  s.checkCapacity (s.len + vs.length)
  return s.appendAll vs

/-- Copies `n` live slots; the ranges may overlap. Their ends are words of 64 bits. -/
def copyWithin (s : Stack) (source dest n : Int) : Except Defect Stack :=
  if n = 0 then .ok s
  else if source < 0 ∨ dest < 0 ∨ (s.len : Int) < Number.wrap (source + n) ∨ (s.len : Int) < Number.wrap (dest + n) then
    .error (.stackCopy source dest n s.len)
  else if Number.wrap (source + n) < source ∨ Number.wrap (dest + n) < dest then .error .fault
  else .ok { s with
    slots := storeAll s.slots dest.toNat (s.words source.toNat n.toNat)
    len_le := Nat.le_trans s.len_le (size_le_storeAll ..) }

/-- Sets the live slots from `low` up to `high`. -/
def fill (s : Stack) (low high : Int) (v : Value) : Except Defect Stack :=
  if low < 0 ∨ (s.len : Int) < high ∨ high < low then .error (.stackFill low high s.len)
  else .ok { s with
    slots := wipe s.slots low.toNat v (high - low).toNat
    len_le := by simpa using s.len_le }

/-- The live slots from `low` up to `high`. -/
def slice (s : Stack) (low high : Int) : Except Defect (List Value) :=
  if low < 0 ∨ (s.len : Int) < high ∨ high < low then .error (.stackSlice low high s.len)
  else .ok (s.words low.toNat (high - low).toNat)

end Stack

end RubyMachine
