import RubyMachine.Proofs.Arguments.Positional
import RubyMachine.Proofs.Machine.Operators

/-! The stack as a list of bounded length. Every operation does to the live slots, and gives, what its counterpart does
to a list and gives; where that is undefined or the list would outgrow the capacity, it ends in an internal defect. What
is left in the slots above never shows (`run_answers`, `perform_all`). The exceptions are counts so large that the sums
with them leave the words of 64 bits (`copyWithin_beyond`, `grow_beyond`). -/

namespace RubyMachine.Stack

/-- What can be done with a stack, each with natural numbers. -/
inductive Op where
  | push (v : Value)
  | pop
  | popN (n : Nat)
  | top
  | peek (n : Nat)
  | get (i : Nat)
  | set (i : Nat) (v : Value)
  | grow (n : Nat)
  | resize (n : Nat)
  | insert (i : Nat) (v : Value)
  | remove (i : Nat)
  | extend (vs : List Value)
  | copyWithin (source dest n : Nat)
  | fill (low high : Nat) (v : Value)
  | slice (low high : Nat)
  | reset

namespace Op

/-- The values that an operation gives, and the stack that it leaves. -/
def run (s : Stack) : Op → Except Defect (List Value × Stack)
  | push v => return ([], ← s.push v)
  | pop => do
    let (v, s) ← s.pop
    return ([v], s)
  | popN n => s.popN n
  | top => return ([← s.top], s)
  | peek n => return ([← s.peek n], s)
  | get i => return ([← s.get i], s)
  | set i v => return ([], ← s.set i v)
  | grow n => return ([], ← s.grow n)
  | resize n => return ([], ← s.resize n)
  | insert i v => return ([], ← s.insert i v)
  | remove i => do
    let (v, s) ← s.remove i
    return ([v], s)
  | extend vs => return ([], ← s.extend vs)
  | copyWithin source dest n => return ([], ← s.copyWithin source dest n)
  | fill low high v => return ([], ← s.fill low high v)
  | slice low high => return (← s.slice low high, s)
  | reset => return ([], s.reset)

/-- The counterpart on lists that may have up to `capacity` elements. -/
def onList (capacity : Nat) (l : List Value) : Op → Option (List Value × List Value)
  | push v => if l.length < capacity then some ([], l ++ [v]) else none
  | pop => l.getLast?.map fun v => ([v], l.dropLast)
  | popN n => if n ≤ l.length then some (l.drop (l.length - n), l.take (l.length - n)) else none
  | top => l.getLast?.map fun v => ([v], l)
  | peek n => l.reverse[n]?.map fun v => ([v], l)
  | get i => l[i]?.map fun v => ([v], l)
  | set i v => if i < l.length then some ([], l.set i v) else none
  | grow n => if l.length + n ≤ capacity then some ([], l ++ List.replicate n .nil) else none
  | resize n => if n ≤ capacity then some ([], l.take n ++ List.replicate (n - l.length) .nil) else none
  | insert i v => if i ≤ l.length ∧ l.length < capacity then some ([], l.insertIdx i v) else none
  | remove i => l[i]?.map fun v => ([v], l.eraseIdx i)
  | extend vs => if l.length + vs.length ≤ capacity then some ([], l ++ vs) else none
  | copyWithin source dest n =>
    if n = 0 ∨ source + n ≤ l.length ∧ dest + n ≤ l.length then
      some ([], l.take dest ++ (l.drop source).take n ++ l.drop (dest + n))
    else none
  | fill low high v =>
    if low ≤ high ∧ high ≤ l.length then some ([], l.take low ++ List.replicate (high - low) v ++ l.drop high) else none
  | slice low high => if low ≤ high ∧ high ≤ l.length then some ((l.drop low).take (high - low), l) else none
  | reset => some ([], [])

/-- The sums that an operation takes on so many elements fit into words of 64 bits. -/
def Fits (length : Nat) : Op → Prop
  | grow n => length + n ≤ Number.maxWord
  | resize n => n ≤ Number.maxWord
  | copyWithin source dest n => source + n ≤ Number.maxWord ∧ dest + n ≤ Number.maxWord
  | _ => True

/-- What an operation makes of a stack, which stays as it is where the operation fails. -/
def perform (s : Stack) (op : Op) : Stack :=
  match op.run s with
  | .ok (_, s) => s
  | .error _ => s

/-- The elements after an operation, which stay as they are where it is undefined. -/
def performOn (capacity : Nat) (l : List Value) (op : Op) : List Value :=
  match op.onList capacity l with
  | some (_, l) => l
  | none => l

end Op

/-- What was run agrees with what is asked for: the same values and contents, or an internal defect for none. -/
def Answers (s : Stack) (x : Except Defect (List Value × Stack)) : Option (List Value × List Value) → Prop
  | some (out, l) => ∃ s', x = .ok (out, s') ∧ s'.toList = l ∧ s'.capacity = s.capacity ∧ s'.id = s.id
  | none => ∃ d, x = .error d ∧ d.severity = .internal

variable {s : Stack} {v : Value} {vs : List Value} {i n low high source dest : Nat}

/-! ## The list of the live slots -/

theorem words_eq (h : i + n ≤ s.len) : s.words i n = (s.toList.drop i).take n := by
  rw [words, toList, Array.toList_extract, List.extract_eq_take_drop, Nat.add_sub_cancel_left, List.drop_take,
    List.take_take, Nat.min_eq_left (by omega)]

theorem words_to_end (h : i + n = s.len) : s.words i n = s.toList.drop i := by
  rw [words_eq h.le, List.take_of_length_le]
  rw [List.length_drop, length_toList]
  omega

/-- Words are laid over a run of live slots, or beyond the last of them, and the stack ends there or further up. -/
theorem take_laid {a : Array Value} {len : Nat} (ha : len ≤ a.size) (hi : i ≤ s.len) (hvs : i + vs.length ≤ len)
    (hlen : len ≤ max s.len (i + vs.length))
    (hslots : ∀ j < len, a.getD j .zero = overlay (fun j => s.slots.getD j .zero) i vs j) :
    a.toList.take len = (s.toList.take i ++ vs ++ s.toList.drop (i + vs.length)).take len := by
  have htake : (s.toList.take i).length = i := by rw [List.length_take, length_toList, Nat.min_eq_left hi]
  refine List.ext_getElem? fun j => ?_
  rw [List.getElem?_take, List.getElem?_take]
  split_ifs with hj
  swap
  · rfl
  have hget : a.toList[j]? = some (a.getD j .zero) := by
    rw [Array.getElem?_toList, Array.getD_eq_getD_getElem?, Array.getElem?_eq_getElem (hj.trans_le ha), Option.getD_some]
  rw [hget, hslots j hj]
  rcases Nat.lt_or_ge j i with hji | hij
  · rw [overlay_of_lt hji, List.append_assoc, List.getElem?_append_left (by omega), List.getElem?_take, if_pos hji,
      getElem?_toList, if_pos (by omega)]
  rcases Nat.lt_or_ge j (i + vs.length) with hjv | hvj
  · obtain ⟨k, rfl⟩ := Nat.exists_eq_add_of_le hij
    have hk : k < vs.length := by omega
    rw [overlay_mem hk, List.getElem?_append_left (by rw [List.length_append]; omega),
      List.getElem?_append_right (by omega), htake, Nat.add_sub_cancel_left, List.getElem?_eq_getElem hk,
      List.getD_eq_getElem?_getD, List.getElem?_eq_getElem hk, Option.getD_some]
  · have hlength : (s.toList.take i ++ vs).length = i + vs.length := by rw [List.length_append, htake]
    rw [overlay_of_le hvj, List.getElem?_append_right (by omega), hlength, List.getElem?_drop,
      Nat.add_sub_cancel' hvj, getElem?_toList, if_pos (by omega)]

theorem getD_wipe_eq (a : Array Value) (v : Value) (j : Nat) (h : i + n ≤ a.size) :
    (wipe a i v n).getD j .zero = overlay (fun j => a.getD j .zero) i (List.replicate n v) j := by
  induction n generalizing a i with
  | zero => rw [List.replicate_zero, overlay_nil, wipe]
  | succ n ih =>
    have hstore : a.setIfInBounds i v = store a i v := (if_pos (by omega)).symm
    rw [wipe, ih _ (by rw [Array.size_setIfInBounds]; omega), List.replicate_succ, ← overlay_cons, hstore]
    congr 1
    funext k
    rw [getD_store, Function.update_apply]

/-! ## Sums in words -/

theorem wrap_within (h : i + n ≤ Number.maxWord) : Number.wrap (i + n) = i + n := by
  rw [Number.maxWord] at h
  exact Number.wrap_of_lt (by omega) (by omega)

theorem wrap_beyond (hi : i ≤ Number.maxWord) (hn : n ≤ Number.maxWord) (h : Number.maxWord < i + n) :
    Number.wrap (i + n) < 0 := by
  rw [Number.maxWord] at hi hn h
  rw [Number.wrap, Number.wordCount, Int.bmod]
  split <;> omega

/-! ## One operation -/

/-- An operation of the stack does what its counterpart does. -/
abbrev Refines (s : Stack) (op : Op) : Prop := Answers s (op.run s) (op.onList s.capacity s.toList)

-- The equations of the two functions are made here once, and not by each of the lemmas below.
attribute [local simp] Op.run Op.onList

theorem Answers.refused {d : Defect} (h : d.severity = .internal) : Answers s (.error d) none := ⟨d, rfl, h⟩

theorem checkCapacity_le {k : Int} (h : k ≤ s.capacity) : s.checkCapacity k = .ok () := if_neg (by omega)

theorem checkCapacity_lt {k : Int} (h : (s.capacity : Int) < k) : s.checkCapacity k = .error (.stackOverflow k s.capacity) :=
  if_pos h

theorem checkIndex_lt (h : i < s.len) : s.checkIndex i = .ok () := if_neg (by omega)

theorem checkIndex_le (h : s.len ≤ i) : s.checkIndex i = .error (.stackIndex i s.len) := if_pos (by omega)

theorem top_of_nil (h : s.toList = []) : s.top = .error .stackUnderflow :=
  if_pos (by rw [← length_toList, h, List.length_nil])

theorem push_refines (s : Stack) (v : Value) : s.Refines (.push v) := by
  simp only [Refines, Op.run, Op.onList, length_toList, push]
  split_ifs with h
  · rw [checkCapacity_le (by omega)]
    exact ⟨s.append v, rfl, toList_append s v, rfl, rfl⟩
  · rw [checkCapacity_lt (by omega)]
    exact .refused rfl

theorem top_refines (s : Stack) : s.Refines .top := by
  simp only [Refines, Op.run, Op.onList]
  rcases List.eq_nil_or_concat' s.toList with hl | ⟨l, v, hl⟩
  · rw [top_of_nil hl, hl]
    exact .refused rfl
  · rw [top_of_toList hl, hl, List.getLast?_concat]
    exact ⟨s, rfl, hl, rfl, rfl⟩

theorem pop_refines (s : Stack) : s.Refines .pop := by
  simp only [Refines, Op.run, Op.onList, pop]
  rcases List.eq_nil_or_concat' s.toList with hl | ⟨l, v, hl⟩
  · rw [top_of_nil hl, hl]
    exact .refused rfl
  · rw [top_of_toList hl, hl, List.getLast?_concat, List.dropLast_concat]
    exact ⟨s.popped, rfl, toList_popped hl, rfl, rfl⟩

theorem popN_refines (s : Stack) (n : Nat) : s.Refines (.popN n) := by
  simp only [Refines, Op.run, Op.onList, length_toList, popN, topN]
  by_cases h : n ≤ s.len
  · rw [if_pos h, if_neg (by omega), if_neg (by omega), ← words_to_end (Nat.sub_add_cancel h)]
    exact ⟨s.cut (s.len - n) .zero, rfl, toList_cut _ (Nat.sub_le ..), rfl, rfl⟩
  · rw [if_neg h, if_pos (by omega)]
    exact .refused rfl

theorem get_refines (s : Stack) (i : Nat) : s.Refines (.get i) := by
  simp only [Refines, Op.run, Op.onList, get, getElem?_toList]
  split_ifs with h
  · rw [checkIndex_lt h]
    exact ⟨s, rfl, rfl, rfl, rfl⟩
  · rw [checkIndex_le (by omega)]
    exact .refused rfl

theorem peek_refines (s : Stack) (n : Nat) : s.Refines (.peek n) := by
  simp only [Refines, Op.run, Op.onList, peek]
  by_cases h : n < s.len
  · have hi : (s.len : Int) - 1 - n = (s.len - 1 - n : Nat) := by omega
    rw [List.getElem?_reverse (by rwa [length_toList]), length_toList, getElem?_toList, if_pos (by omega), hi,
      checkIndex_lt (by omega)]
    exact ⟨s, rfl, rfl, rfl, rfl⟩
  · rw [List.getElem?_eq_none (by rw [List.length_reverse, length_toList]; omega), checkIndex, if_pos (by omega)]
    exact .refused rfl

theorem set_refines (s : Stack) (i : Nat) (v : Value) : s.Refines (.set i v) := by
  simp only [Refines, Op.run, Op.onList, length_toList, set]
  split_ifs with h
  · rw [checkIndex_lt h]
    refine ⟨_, rfl, ?_, rfl, rfl⟩
    rw [toList, Array.toList_setIfInBounds, List.take_set]
    rfl
  · rw [checkIndex_le (by omega)]
    exact .refused rfl

/-- What a stack is asked to grow by is added to it as nil slots, if there is room for them. -/
theorem grow_eq (s : Stack) (h : s.len + n ≤ Number.maxWord) :
    s.grow n = if s.len + n ≤ s.capacity then .ok (s.appendAll (List.replicate n .nil))
      else .error (.stackOverflow (s.len + n : Nat) s.capacity) := by
  have htop : Number.wrap (s.len + n) = (s.len + n : Nat) := (wrap_within h).trans (Nat.cast_add ..).symm
  have hcount : ((s.len + n : Nat) - s.len : Int).toNat = n := by omega
  simp only [grow, htop]
  rw [dif_pos (by omega), hcount]
  split_ifs with hroom
  · rw [checkCapacity_le (by omega)]
    rfl
  · rw [checkCapacity_lt (by omega)]
    rfl

theorem grow_refines (s : Stack) (h : s.len + n ≤ Number.maxWord) : s.Refines (.grow n) := by
  simp only [Refines, Op.run, Op.onList, length_toList, grow_eq s h]
  split_ifs
  · exact ⟨_, rfl, toList_appendAll s _, rfl, rfl⟩
  · exact .refused rfl

theorem resize_refines (s : Stack) (hs : s.len ≤ s.capacity) (h : n ≤ Number.maxWord) : s.Refines (.resize n) := by
  simp only [Refines, Op.run, Op.onList, length_toList, resize]
  rw [if_neg (by omega)]
  by_cases hn : s.len < n
  · have hlist : s.toList.take n = s.toList := List.take_of_length_le (by rw [length_toList]; omega)
    rw [if_pos (by omega), ← Nat.cast_sub hn.le, grow_eq s (by omega), Nat.add_sub_cancel' hn.le, hlist]
    split_ifs
    · exact ⟨_, rfl, toList_appendAll s _, rfl, rfl⟩
    · exact .refused rfl
  · rw [if_neg (by omega), if_pos (by omega), Nat.sub_eq_zero_of_le (by omega), List.replicate_zero, List.append_nil]
    exact ⟨s.cut n .zero, rfl, toList_cut _ (by omega), rfl, rfl⟩

theorem insertIdx_eq {l : List Value} (h : i ≤ l.length) (v : Value) : l.insertIdx i v = l.take i ++ v :: l.drop i := by
  have hlength : (l.take i).length + 0 = i := by rw [List.length_take, Nat.min_eq_left h, Nat.add_zero]
  calc l.insertIdx i v = (l.take i ++ l.drop i).modifyTailIdx ((l.take i).length + 0) (v :: ·) := by
        rw [List.take_append_drop, hlength]
        rfl
    _ = l.take i ++ v :: l.drop i := List.modifyTailIdx_add ..

theorem insert_refines (s : Stack) (i : Nat) (v : Value) : s.Refines (.insert i v) := by
  simp only [Refines, Op.run, Op.onList, length_toList, insert]
  by_cases hi : i ≤ s.len
  swap
  · rw [dif_pos (by omega), if_neg (by omega)]
    exact .refused rfl
  rw [dif_neg (by omega)]
  by_cases hroom : s.len < s.capacity
  swap
  · rw [checkCapacity_lt (by omega), if_neg (by omega)]
    exact .refused rfl
  rw [checkCapacity_le (by omega), if_pos ⟨hi, hroom⟩]
  refine ⟨_, rfl, ?_, rfl, rfl⟩
  have hrest : s.words i (s.len - i) = s.toList.drop i := words_to_end (Nat.add_sub_cancel' hi)
  have hlength : i + (v :: s.words i (s.len - i)).length = s.len + 1 := by
    rw [hrest, List.length_cons, List.length_drop, length_toList]
    omega
  have hbeyond : s.toList.drop (s.len + 1) = [] := List.drop_of_length_le (by rw [length_toList]; omega)
  have hsize := add_le_size_storeAll s.slots i (v :: s.words i (s.len - i)) (hi.trans s.len_le)
  show (storeAll s.slots i (v :: s.words i (s.len - i))).toList.take (s.len + 1) = _
  rw [take_laid (hlength ▸ hsize) hi hlength.le (le_max_of_le_right hlength.ge) fun j _ => getD_storeAll_eq s.slots i j _,
    hlength, hrest, hbeyond, List.append_nil, List.take_of_length_le, insertIdx_eq (by rwa [length_toList])]
  rw [List.length_append, List.length_cons, List.length_take, List.length_drop, length_toList]
  omega

theorem remove_refines (s : Stack) (i : Nat) : s.Refines (.remove i) := by
  simp only [Refines, Op.run, Op.onList, getElem?_toList, remove]
  split_ifs with hi
  swap
  · rw [checkIndex_le (by omega)]
    exact .refused rfl
  rw [checkIndex_lt hi]
  refine ⟨_, rfl, ?_, rfl, rfl⟩
  have hrest : s.words (i + 1) (s.len - i - 1) = s.toList.drop (i + 1) := words_to_end (by omega)
  have hlength : i + (s.words (i + 1) (s.len - i - 1)).length = s.len - 1 := by
    rw [hrest, List.length_drop, length_toList]
    omega
  have hsize := add_le_size_storeAll s.slots i (s.words (i + 1) (s.len - i - 1)) (hi.le.trans s.len_le)
  show ((storeAll s.slots i (s.words (i + 1) (s.len - i - 1))).setIfInBounds (s.len - 1) .nil).toList.take (s.len - 1) = _
  rw [Array.toList_setIfInBounds, List.take_set_of_le le_rfl, take_laid (hlength ▸ hsize) hi.le hlength.le
    (le_max_of_le_right hlength.ge) fun j _ => getD_storeAll_eq s.slots i j _, hlength, hrest,
    List.eraseIdx_eq_take_drop_succ, List.take_left']
  rw [List.length_append, List.length_take, List.length_drop, length_toList]
  omega

theorem extend_refines (s : Stack) (vs : List Value) : s.Refines (.extend vs) := by
  simp only [Refines, Op.run, Op.onList, length_toList, extend]
  split_ifs with h
  · rw [checkCapacity_le (by omega)]
    exact ⟨_, rfl, toList_appendAll s vs, rfl, rfl⟩
  · rw [checkCapacity_lt (by omega)]
    exact .refused rfl

theorem copyWithin_refines (s : Stack) (hsource : source + n ≤ Number.maxWord) (hdest : dest + n ≤ Number.maxWord) :
    s.Refines (.copyWithin source dest n) := by
  simp only [Refines, Op.run, Op.onList, length_toList, copyWithin, wrap_within hsource, wrap_within hdest,
    Int.natCast_eq_zero]
  by_cases hn : n = 0
  · rw [if_pos hn, if_pos (.inl hn), hn, List.take_zero, List.append_nil, Nat.add_zero, List.take_append_drop]
    exact ⟨s, rfl, rfl, rfl, rfl⟩
  rw [if_neg hn]
  by_cases h : source + n ≤ s.len ∧ dest + n ≤ s.len
  swap
  · rw [if_pos (by omega), if_neg (by omega)]
    exact .refused rfl
  rw [if_neg (by omega), if_neg (by omega), if_pos (.inr h)]
  refine ⟨_, rfl, ?_, rfl, rfl⟩
  have hlength : (s.words source n).length = n := length_words s source n (by have := s.len_le; omega)
  show (storeAll s.slots dest (s.words source n)).toList.take s.len = _
  rw [take_laid (s.len_le.trans (size_le_storeAll ..)) (by omega) (by rw [hlength]; exact h.2) (le_max_left ..)
    fun j _ => getD_storeAll_eq s.slots dest j _, hlength, words_eq h.1, List.take_of_length_le]
  simp only [List.length_append, List.length_take, List.length_drop, length_toList]
  omega

theorem fill_refines (s : Stack) (low high : Nat) (v : Value) : s.Refines (.fill low high v) := by
  simp only [Refines, Op.run, Op.onList, length_toList, fill]
  by_cases h : low ≤ high ∧ high ≤ s.len
  swap
  · rw [if_pos (by omega), if_neg h]
    exact .refused rfl
  rw [if_neg (by omega), if_pos h]
  refine ⟨_, rfl, ?_, rfl, rfl⟩
  have hcount : ((high : Int) - low).toNat = high - low := by omega
  have hlength : low + (List.replicate (high - low) v).length = high := by
    rw [List.length_replicate]
    omega
  show (wipe s.slots low v ((high : Int) - low).toNat).toList.take s.len = _
  rw [hcount, take_laid (by rw [size_wipe]; exact s.len_le) (h.1.trans h.2) (hlength.trans_le h.2) (le_max_left ..)
    fun j _ => getD_wipe_eq s.slots v j (by have := s.len_le; omega), hlength, List.take_of_length_le]
  simp only [List.length_append, List.length_take, List.length_drop, List.length_replicate, length_toList]
  omega

theorem slice_refines (s : Stack) (low high : Nat) : s.Refines (.slice low high) := by
  simp only [Refines, Op.run, Op.onList, length_toList, slice]
  by_cases h : low ≤ high ∧ high ≤ s.len
  · have hcount : ((high : Int) - low).toNat = high - low := by omega
    rw [if_neg (by omega), if_pos h, hcount, Int.toNat_natCast, words_eq (by omega)]
    exact ⟨s, rfl, rfl, rfl, rfl⟩
  · rw [if_pos (by omega), if_neg h]
    exact .refused rfl

theorem reset_refines (s : Stack) : s.Refines .reset := ⟨s.reset, rfl, rfl, rfl, rfl⟩

/-- Every operation answers as its counterpart does, as long as the sums that it takes fit. -/
theorem run_answers (hs : s.len ≤ s.capacity) (op : Op) (h : op.Fits s.len) : s.Refines op := by
  cases op with
  | push v => exact push_refines s v
  | pop => exact pop_refines s
  | popN n => exact popN_refines s n
  | top => exact top_refines s
  | peek n => exact peek_refines s n
  | get i => exact get_refines s i
  | set i v => exact set_refines s i v
  | grow n => exact grow_refines s h
  | resize n => exact resize_refines s hs h
  | insert i v => exact insert_refines s i v
  | remove i => exact remove_refines s i
  | extend vs => exact extend_refines s vs
  | copyWithin source dest n => exact copyWithin_refines s h.1 h.2
  | fill low high v => exact fill_refines s low high v
  | slice low high => exact slice_refines s low high
  | reset => exact reset_refines s

/-! ## Runs of operations -/

theorem Op.Fits.mono {op : Op} {length capacity : Nat} (h : op.Fits capacity) (hl : length ≤ capacity) : op.Fits length := by
  cases op with
  | grow n => exact (Nat.add_le_add_right hl n).trans h
  | _ => exact h

theorem Op.length_onList {op : Op} {capacity : Nat} {l l' out : List Value} (hl : l.length ≤ capacity)
    (h : op.onList capacity l = some (out, l')) : l'.length ≤ capacity := by
  -- an operation that only reads gives the list back, the others check for room or never make it longer
  cases op <;> simp only [onList, Option.map_eq_some_iff, Option.ite_none_right_eq_some, Option.some.injEq,
    Prod.mk.injEq] at h
  case push | grow | extend | resize =>
    obtain ⟨hroom, -, rfl⟩ := h
    simp only [List.length_append, List.length_singleton, List.length_replicate, List.length_take]
    omega
  case insert =>
    obtain ⟨hroom, -, rfl⟩ := h
    rw [List.length_insertIdx_of_le_length hroom.1]
    exact hroom.2
  case popN | set | copyWithin | fill =>
    obtain ⟨hrange, -, rfl⟩ := h
    simp only [List.length_append, List.length_replicate, List.length_take, List.length_drop, List.length_set]
    omega
  case pop =>
    obtain ⟨v, -, -, rfl⟩ := h
    rw [List.length_dropLast]
    omega
  case remove i =>
    obtain ⟨v, -, -, rfl⟩ := h
    exact (List.eraseIdx_sublist l i).length_le.trans hl
  case top | peek | get =>
    obtain ⟨v, -, -, rfl⟩ := h
    exact hl
  case slice =>
    obtain ⟨-, -, rfl⟩ := h
    exact hl
  case reset =>
    obtain ⟨-, rfl⟩ := h
    exact Nat.zero_le capacity

theorem Op.length_performOn {capacity : Nat} {l : List Value} (op : Op) (h : l.length ≤ capacity) :
    (op.performOn capacity l).length ≤ capacity := by
  unfold performOn
  split
  · exact length_onList h ‹_›
  · exact h

/-- What one operation makes of a stack is what it makes of its list. -/
theorem Answers.perform {op : Op} (h : s.Refines op) :
    (op.perform s).toList = op.performOn s.capacity s.toList ∧ (op.perform s).capacity = s.capacity := by
  unfold Refines at h
  unfold Op.perform Op.performOn
  cases hlist : op.onList s.capacity s.toList with
  | none =>
    obtain ⟨d, hrun, -⟩ := hlist ▸ h
    rw [hrun]
    exact ⟨rfl, rfl⟩
  | some next =>
    obtain ⟨t, hrun, hlive, hcapacity, -⟩ := hlist ▸ h
    rw [hrun]
    exact ⟨hlive, hcapacity⟩

/-- After some operations that keep to what fits, a stack holds what they make of an empty list, and no more than it has
room for. -/
theorem perform_all (capacity : Int) (id : Nat) (ops : List Op)
    (h : ∀ op ∈ ops, op.Fits (empty capacity id).capacity) :
    let s := ops.foldl Op.perform (empty capacity id)
    s.toList = ops.foldl (Op.performOn (empty capacity id).capacity) [] ∧ s.len ≤ s.capacity ∧
      s.capacity = (empty capacity id).capacity := by
  induction ops using List.reverseRecOn with
  | nil => exact ⟨rfl, Nat.zero_le _, rfl⟩
  | append_singleton ops op ih =>
    obtain ⟨hlist, hlen, hcapacity⟩ := ih fun op hop => h op (List.mem_append_left _ hop)
    have hop := h op (List.mem_append_right _ (List.mem_singleton_self op))
    have hnext := run_answers hlen op (hop.mono (hcapacity ▸ hlen))
    obtain ⟨hlist', hcapacity'⟩ := hnext.perform
    rw [List.foldl_concat, List.foldl_concat]
    refine ⟨by rw [hlist', hlist, hcapacity], ?_, hcapacity'.trans hcapacity⟩
    rw [← length_toList, hlist', hcapacity']
    exact Op.length_performOn op (by rwa [length_toList])

/-! ## Sums that do not fit -/

/-- An end that is too large for a word passes for one that lies within the live slots, and no slots lie in between. -/
theorem copyWithin_beyond (hn : n ≤ Number.maxWord) (hsource : source ≤ Number.maxWord) (hdest : dest ≤ Number.maxWord)
    (hs : s.len ≤ Number.maxWord)
    (h : Number.maxWord < source + n ∧ (Number.maxWord < dest + n ∨ dest + n ≤ s.len) ∨
      source + n ≤ s.len ∧ Number.maxWord < dest + n) : s.copyWithin source dest n = .error .fault := by
  have hends : Number.wrap (source + n) ≤ s.len ∧ Number.wrap (dest + n) ≤ s.len ∧
      (Number.wrap (source + n) < source ∨ Number.wrap (dest + n) < dest) := by
    rcases h with ⟨hs', hd | hd⟩ | ⟨hs', hd⟩
    · have := wrap_beyond hsource hn hs'
      have := wrap_beyond hdest hn hd
      omega
    · have := wrap_beyond hsource hn hs'
      have := wrap_within (hd.trans hs)
      omega
    · have := wrap_within (hs'.trans hs)
      have := wrap_beyond hdest hn hd
      omega
  rw [copyWithin, if_neg (by omega), if_neg (by omega), if_pos hends.2.2]

/-- A stack that is asked to grow so far that its length is too large for a word loses all that it holds. -/
theorem grow_beyond (hn : n ≤ Number.maxWord) (hs : s.len ≤ Number.maxWord) (h : Number.maxWord < s.len + n) :
    ∃ t, s.grow n = .ok t ∧ t.toList = [] := by
  have htop := wrap_beyond hs hn h
  refine ⟨{ s with len := 0, len_le := Nat.zero_le _ }, ?_, rfl⟩
  simp only [grow]
  rw [checkCapacity_le (by omega), dif_neg (by omega)]
  simp only [Int.toNat_of_nonpos htop.le]
  rfl

end RubyMachine.Stack
