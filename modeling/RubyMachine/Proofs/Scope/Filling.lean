import RubyMachine.Proofs.Scope.Escape

/-! Scopes word by word: what making a scope, binding it to other code, copying it and setting its words leave in
memory. -/

namespace RubyMachine

open Exec

/-! ## Words that hold numbers -/

theorem toNat_ofInt {k : Nat} (h : k < 2 ^ 64) : (UInt64.ofInt k).toNat = k := by
  rw [UInt64.ofInt, UInt64.toNat_ofNat']
  omega

/-- The function that runs in an environment is the one with the number in its word. -/
theorem Machine.fn_of_word {m : Machine} {e : Env} {fn : FnId}
    (h : e.wordAt Frame.fnWord m = .ok (.ofInt fn.id.toNat) m) : e.fn m = .ok fn m := by
  have hsmall := fn.id.toNat_lt
  have hint : (Value.ofInt fn.id.toNat).toInt = fn.id.toNat :=
    Value.toInt_ofInt (by unfold Value.minFixnum Value.maxFixnum; omega)
  have hid : (UInt64.ofInt (fn.id.toNat : Int)).toUInt32 = fn.id := by
    refine UInt32.toNat.inj ?_
    rw [UInt64.toNat_toUInt32, toNat_ofInt (by omega)]
    omega
  rw [Env.fn, bind_of_ok h, Value.asFixnum, if_pos (Value.isFixnum_ofInt _), hint]
  exact congrArg (fun i => EStateM.Result.ok (FnId.mk i) m) hid

namespace Frame

variable {n : Nat} {w : Value}

theorem exists_flags (h : n < 2 ^ 39) : ∃ w, flags n codeFlag = .ok w := by
  refine ⟨.ofInt ((n : Int) * 256 + codeFlag.toNat), ?_⟩
  rw [flags, Value.fixnum, Value.ofInt?, if_neg]
  rw [show codeFlag.toNat = 128 by decide]
  unfold Value.maxFixnum Value.minFixnum
  omega

/-- A flag word gives back the number of slots that it was made of. -/
theorem of_flags (h : flags n codeFlag = .ok w) : w.isFixnum = true ∧ w.slots = n := by
  rw [flags, Value.fixnum, Value.ofInt?, show codeFlag.toNat = 128 by decide,
    show (n : Int) * 256 + (128 : Nat) = (n * 256 + 128 : Nat) by omega] at h
  split_ifs at h with hbounds
  cases h
  refine ⟨Value.isFixnum_ofInt _, ?_⟩
  rw [Value.slots, Value.toInt_ofInt (by omega), UInt64.toNat_shiftRight, toNat_ofInt, show (8 : UInt64).toNat % 64 = 8 by decide,
    Nat.shiftRight_eq_div_pow]
  · omega
  · unfold Value.maxFixnum at hbounds
    omega

end Frame

/-! ## What a scope holds -/

/-- The receiver, in both of its places, the local slots and the control words. -/
structure Contents where
  first : Value
  receiver : Value
  locals : Nat → Value
  control : Nat → Value

/-- What is held after word `k` was set in a scope with `n` local slots. -/
def Contents.put (c : Contents) (n k : Nat) (x : Value) : Contents where
  first := if k = 0 then x else c.first
  receiver := if k = n + 1 then x else c.receiver
  locals i := if k = i + 1 then x else c.locals i
  control j := if k = n + 2 + j then x else c.control j

/-- What is held after control word `k` was set. -/
def Contents.setControl (c : Contents) (k : Nat) (x : Value) : Contents :=
  { c with control := fun j => if k = j then x else c.control j }

namespace Scope

/-- A scope at `v` with `n` local slots that holds `c`. -/
structure Laid (s : Scope) (v : Value) (n : Nat) (c : Contents) : Prop where
  self : s.self = v
  base : s.base = n + 2
  size : s.words.size = n + 10
  first : s.words.getD 0 .nil = c.first
  receiver : s.receiver = c.receiver
  slot : ∀ i < n, s.slot i = c.locals i
  word : ∀ j < 8, s.word j = c.control j

/-- A complete scope at `v` for code with `n` local slots. -/
structure Bound (s : Scope) (v : Value) (fn : FnId) (n : Nat) : Prop where
  shaped : s.Shaped v
  count : s.slotCount = n
  code : s.word 6 = .ofInt fn.id.toNat

namespace Laid

variable {s : Scope} {v x : Value} {n i j : Nat} {c d : Contents} {fn : FnId} (h : s.Laid v n c)

include h

theorem put {k : Nat} (hk : k < n + 10) : (s.put k x).Laid v n (c.put n k x) := by
  have hlt : k < s.words.size := by rw [h.size]; exact hk
  have hb := h.base
  refine ⟨h.self, hb, by rw [size_put, h.size], ?_, ?_, fun i hi => ?_, fun j hj => ?_⟩
  · simp only [getD_put hlt, Contents.put, h.first, eq_comm (a := 0)]
  · have hr := h.receiver
    rw [Scope.receiver, hb] at hr
    simp only [Scope.receiver, getD_put hlt, base_put, hb, Contents.put, ← hr, eq_comm (a := k),
      show n + 2 - 1 = n + 1 from rfl]
  · simp only [Scope.slot, getD_put hlt, Contents.put, ← h.slot i hi, eq_comm (a := k)]
  · simp only [Scope.word, getD_put hlt, base_put, hb, Contents.put, ← h.word j hj, eq_comm (a := k)]

theorem congr (hf : c.first = d.first) (hr : c.receiver = d.receiver) (hl : ∀ i < n, c.locals i = d.locals i)
    (hc : ∀ j < 8, c.control j = d.control j) : s.Laid v n d :=
  ⟨h.self, h.base, h.size, h.first.trans hf, h.receiver.trans hr, fun i hi => (h.slot i hi).trans (hl i hi),
    fun j hj => (h.word j hj).trans (hc j hj)⟩

theorem setControl (hj : j < 8) : (s.put (n + 2 + j) x).Laid v n (c.setControl j x) := by
  refine (h.put (by omega)).congr ?_ ?_ (fun i hi => ?_) fun k hk => ?_
  · exact if_neg (by omega)
  · exact if_neg (by omega)
  · exact if_neg (by omega)
  · simp only [Contents.put, Contents.setControl, Nat.add_left_cancel_iff]

theorem slotCount (hn : (c.control 2).slots = n) : s.slotCount = n := by
  rw [Scope.slotCount, h.word 2 (by decide), hn]

theorem bound (hfirst : c.first = c.receiver) (henv : c.control 1 = v) (hfix : (c.control 2).isFixnum = true)
    (hn : (c.control 2).slots = n) (hcode : c.control 6 = .ofInt fn.id.toNat)
    (hlinks : ∀ j < 8, j ≠ 2 → j ≠ 6 → (c.control j).isLocal = false) : s.Bound v fn n := by
  have hcount := h.slotCount hn
  refine ⟨⟨h.self, by rw [hcount, h.base], by rw [h.size, h.base], ?_, ?_, ?_, fun j hj => ?_⟩, hcount, ?_⟩
  · rw [h.word 2 (by decide)]
    exact hfix
  · rw [h.word 1 (by decide), henv]
  · rw [h.first, h.receiver, hfirst]
  · rw [h.word j hj]
    by_cases h2 : j = 2
    · rw [h2]
      exact Value.isLocal_of_isFixnum hfix
    by_cases h6 : j = 6
    · rw [h6, hcode]
      exact Value.isLocal_of_isFixnum (Value.isFixnum_ofInt _)
    exact hlinks j hj h2 h6
  · rw [h.word 6 (by decide), hcode]

end Laid

variable {s : Scope} {v x : Value} {fn : FnId} {n i : Nat}

/-- A complete scope holds what it shows. -/
theorem Shaped.laid (h : s.Shaped v) :
    s.Laid v s.slotCount ⟨s.receiver, s.receiver, s.slot, s.word⟩ where
  self := h.self
  base := h.base
  size := by rw [h.size, h.base]
  first := h.first
  receiver := rfl
  slot _ _ := rfl
  word _ _ := rfl

/-- The local slots for code with `n` of them, in place of those that there were. -/
def keptSlots (s : Scope) (n : Nat) : Array Value :=
  let kept := (s.layer.locals.take n).toArray
  kept ++ Array.replicate (n - kept.size) Value.nil

theorem size_keptSlots (s : Scope) (n : Nat) : (s.keptSlots n).size = n := by
  simp [keptSlots, layer]

theorem getElem?_keptSlots (s : Scope) {n i : Nat} (hi : i < n) :
    (s.keptSlots n)[i]? = some (if i < s.slotCount then s.slot i else .nil) := by
  have hsize : (s.layer.locals.take n).toArray.size = min n s.slotCount := by simp [layer]
  simp only [keptSlots]
  split_ifs with hlt
  · rw [Array.getElem?_append_left (by omega), List.getElem?_toArray, List.getElem?_take_of_lt hi, layer, List.getElem?_map,
      List.getElem?_range hlt, Option.map_some]
  · rw [Array.getElem?_append_right (by omega), Array.getElem?_replicate, if_pos (by omega)]

/-- The scope for code with `n` local slots in place of what it was for. -/
def rebuilt (s : Scope) (n : Nat) : Scope :=
  let kept := (s.layer.locals.take n).toArray
  { s with
    base := scopeBase n
    words := #[s.layer.self] ++ kept ++ Array.replicate (n - kept.size) Value.nil ++ #[s.layer.self] ++
      s.words.extract s.base (s.base + Frame.words) }

theorem words_rebuilt (s : Scope) (n : Nat) : (s.rebuilt n).words =
    #[s.receiver] ++ s.keptSlots n ++ #[s.receiver] ++ s.words.extract s.base (s.base + Frame.words) := by
  simp only [rebuilt, keptSlots, layer, Array.append_assoc]

theorem Shaped.rebuilt (h : s.Shaped v) (n : Nat) : (s.rebuilt n).Laid v n
    ⟨s.receiver, s.receiver, fun i => if i < s.slotCount then s.slot i else .nil, s.word⟩ := by
  have hsize := h.size
  have hkept := s.size_keptSlots n
  have hext : (s.words.extract s.base (s.base + Frame.words)).size = 8 := by
    simp only [Array.size_extract, Frame.words]
    omega
  have hlow : (#[s.receiver] ++ s.keptSlots n).size = n + 1 := by simp [hkept, Nat.add_comm]
  have hmid : (#[s.receiver] ++ s.keptSlots n ++ #[s.receiver]).size = n + 2 := by rw [Array.size_append, hlow]; rfl
  refine ⟨h.self, rfl, ?_, ?_, ?_, fun i hi => ?_, fun j hj => ?_⟩
  · rw [words_rebuilt, Array.size_append, hmid, hext]
  · rw [words_rebuilt, Array.getD_eq_getD_getElem?, Array.getElem?_append_left (by omega),
      Array.getElem?_append_left (by omega), Array.getElem?_append_left (by simp)]
    rfl
  · show (s.rebuilt n).words.getD (n + 1) .nil = s.receiver
    rw [words_rebuilt, Array.getD_eq_getD_getElem?, Array.getElem?_append_left (by omega),
      Array.getElem?_append_right (by omega), hlow, Nat.sub_self]
    rfl
  · show (s.rebuilt n).words.getD (i + 1) .nil = _
    rw [words_rebuilt, Array.getD_eq_getD_getElem?, Array.getElem?_append_left (by omega),
      Array.getElem?_append_left (by omega), Array.getElem?_append_right (by simp), List.size_toArray,
      List.length_singleton, Nat.add_sub_cancel, getElem?_keptSlots s hi, Option.getD_some]
  · show (s.rebuilt n).words.getD (n + 2 + j) .nil = s.words.getD (s.base + j) .nil
    rw [words_rebuilt, Array.getD_eq_getD_getElem?, Array.getD_eq_getD_getElem?, Array.getElem?_append_right (by omega),
      hmid, Nat.add_sub_cancel_left, Array.getElem?_extract, if_pos]
    unfold Frame.words
    omega

theorem Shaped.put (h : s.Shaped v) (hi : i < s.slotCount) (x : Value) : (s.put (i + 1) x).Shaped v ∧
    ∀ j < 8, (s.put (i + 1) x).word j = s.word j := by
  have hbase := h.base
  have hsize := h.size
  have hget (k : Nat) (hk : k ≠ i + 1) : (s.put (i + 1) x).words.getD k .nil = s.words.getD k .nil := by
    rw [getD_put (by omega), if_neg hk]
  have hword (j : Nat) : (s.put (i + 1) x).word j = s.word j := by
    rw [word, base_put, hget _ (by omega), word]
  refine ⟨⟨h.self, ?_, ?_, ?_, ?_, ?_, fun j hj => ?_⟩, fun j _ => hword j⟩
  · rw [slotCount, hword]
    exact hbase
  · rw [size_put]
    exact hsize
  · rw [hword]
    exact h.flags
  · rw [hword]
    exact h.env
  · rw [receiver, base_put, hget 0 (by omega), hget _ (by omega)]
    exact h.first
  · rw [hword]
    exact h.control j hj

/-- Setting a local slot changes nothing else. -/
theorem Bound.put (h : s.Bound v fn n) (hi : i < n) : (s.put (i + 1) x).Bound v fn n ∧
    (s.put (i + 1) x).receiver = s.receiver ∧ (∀ j < 8, (s.put (i + 1) x).word j = s.word j) ∧
    ∀ k < n, (s.put (i + 1) x).slot k = if k = i then x else s.slot k := by
  obtain ⟨hsh, rfl, hcode⟩ := h
  have hl := hsh.laid.put (x := x) (k := i + 1) (by omega)
  have hreceiver : (Contents.put ⟨s.receiver, s.receiver, s.slot, s.word⟩ s.slotCount (i + 1) x).receiver = s.receiver :=
    if_neg (by omega)
  have hcontrol (j : Nat) :
      (Contents.put ⟨s.receiver, s.receiver, s.slot, s.word⟩ s.slotCount (i + 1) x).control j = s.word j :=
    if_neg (by omega)
  refine ⟨hl.bound ?_ ?_ ?_ ?_ ?_ fun j hj _ _ => ?_, hl.receiver.trans hreceiver,
    fun j hj => (hl.word j hj).trans (hcontrol j), fun k hk => ?_⟩
  · rw [hreceiver]
    rfl
  · rw [hcontrol, hsh.env]
  · rw [hcontrol]
    exact hsh.flags
  · rw [hcontrol]
    rfl
  · rw [hcontrol, hcode]
  · rw [hcontrol]
    exact hsh.control j hj
  · rw [hl.slot k hk]
    simp only [Contents.put, Nat.add_right_cancel_iff, eq_comm (a := i)]

end Scope

namespace Machine

variable {m m' m'' : Machine} {v w x top self outer : Value} {s s' : Scope} {i j n k : Nat} {c d : Contents}
  {fn : FnId} {seq : Code.Sequence}

/-! ## One scope -/

/-- Nothing but what is at `v` has changed. -/
structure Touches (m m' : Machine) (v : Value) : Prop where
  rest : m'.withHeap m.heap = m
  inv : m'.heap.Inv
  elsewhere : ∀ w : Value, w.toRef ≠ v.toRef → ∀ o, m.heap.read w.toRef = .ok o → m'.heap.read w.toRef = .ok o

theorem Touches.scope? (h : m.Touches m' v) (hne : w.toRef ≠ v.toRef) (hs : m.scope? w = some s) :
    m'.scope? w = some s := by
  rw [scope?_eq_some] at hs ⊢
  exact ⟨hs.1, h.elsewhere w hne _ hs.2⟩

theorem Touches.trans (h : m.Touches m' v) (h' : m'.Touches m'' v) : m.Touches m'' v where
  rest := by rw [← h.rest, ← h'.rest]; rfl
  inv := h'.inv
  elsewhere w hne o ho := h'.elsewhere w hne o (h.elsewhere w hne o ho)

theorem Rewritten.touches (h : m.Rewritten m' v s) : m.Touches m' v where
  rest := h.rest
  inv := h.inv
  elsewhere w hne o ho := by rw [h.other w hne, ho]

/-- The scope that an outer link leads to gives the method link. -/
def MethodOf (m : Machine) (v outer top : Value) : Prop :=
  outer.isNil = true ∧ top = v ∨
    outer.isNil = false ∧ outer.toRef ≠ v.toRef ∧ ∃ s, m.scope? outer = some s ∧ s.Shaped outer ∧ s.word 3 = top

/-- At `v` there is a scope that holds `c`. -/
structure Fills (m m' : Machine) (v : Value) (n : Nat) (c : Contents) : Prop extends m.Touches m' v where
  scope : ∃ s, m'.scope? v = some s ∧ s.Laid v n c

namespace Fills

variable {α : Type} {f : Unit → Exec α} {P : α → Machine → Prop} (h : m.Fills m' v n c)

include h

theorem setWordAt {i : Int} (hi : i + (n + 2) = k) (hk : k < n + 10)
    (hl : ∀ s : Scope, s.Laid v n c → (s.put k x).Laid v n d) :
    ∃ m'', (Env.heap v).setWordAt i x m' = .ok () m'' ∧ m.Fills m'' v n d := by
  obtain ⟨s, hs, hlaid⟩ := h.scope
  obtain ⟨m'', hrun, hr⟩ := setWordAt_heap (x := x) h.inv hs (i := i) (k := k) (by rw [hlaid.base]; omega)
    (by rw [hlaid.size]; exact hk)
  exact ⟨m'', hrun, h.toTouches.trans hr.touches, _, hr.here, hl s hlaid⟩

theorem setControl {i : Int} (hi : i = j) (hj : j < 8) (x : Value) :
    ∃ m'', (Env.heap v).setWordAt i x m' = .ok () m'' ∧ m.Fills m'' v n (c.setControl j x) :=
  h.setWordAt (k := n + 2 + j) (by omega) (by omega) fun _ hs => hs.setControl hj

theorem wordAt {i : Int} (hi : i = j) (hj : j < 8) : (Env.heap v).wordAt i m' = .ok (c.control j) m' := by
  obtain ⟨s, hs, hl⟩ := h.scope
  rw [← hl.word j hj]
  exact wordAt_heap hs (by omega) (by rw [hl.size, hl.base]; omega)

/-- Setting a control word is one step of a computation. -/
theorem step {i : Int} (hi : i = j) (hj : j < 8)
    (hf : ∀ m'', m.Fills m'' v n (c.setControl j x) → Ends (f ()) m'' k P) :
    Ends ((Env.heap v).setWordAt i x >>= f) m' k P := by
  obtain ⟨m'', hrun, hfills⟩ := h.setControl hi hj x
  exact .step hrun (hf m'' hfills)

theorem linkMethod (ho : m.MethodOf v (c.control 4) top) :
    ∃ m'', Exec.linkMethod v m' = .ok () m'' ∧
      m.Fills m'' v n (c.setControl 3 top) := by
  have hout : (Env.heap v).outer m' = .ok (c.control 4) m' := h.wordAt rfl (by decide)
  obtain ⟨m'', hrun, hf⟩ := h.setControl (i := Frame.methodWord) (j := 3) rfl (by decide) top
  refine ⟨m'', ?_, hf⟩
  rw [Exec.linkMethod, bind_of_ok hout]
  rcases ho with ⟨hn, rfl⟩ | ⟨hn, hne, s, hs, hsh, rfl⟩
  · rw [if_pos hn, hrun]
  · have hs' := h.toTouches.scope? hne hs
    have hm : (Env.heap (c.control 4)).method m' = .ok (s.word 3) m' := scope_wordAt hs' hsh rfl (by decide)
    rw [if_neg (by rw [hn]; decide), bind_of_ok (asScope_apply hs'), bind_of_ok hm, hrun]

end Fills

/-- A new scope that refers to itself. -/
theorem alloc_fills (hi : m.heap.Inv) (hs : ∀ v, ({ s with self := v } : Scope).Laid v n c) :
    Ends (alloc (.scope s)) m (m.heap.pages.size + 1) fun ref m' =>
      ref.isRef = true ∧ (∀ o, m.heap.read ref.toRef ≠ .ok o) ∧ ∃ m'', update ref (fun
        | .scope s => .scope { s with self := ref }
        | o => o) m' = .ok () m'' ∧ m.Fills m'' ref n c := by
  refine alloc_ends hi (Nat.lt_succ_self _) fun ref h' h => ?_
  have hs' : (m.withHeap h').scope? ref = some s := scope?_eq_some.2 ⟨h.isRef, h.read⟩
  have hr := rewritten_update h.inv hs' (f := fun
    | .scope s => .scope { s with self := ref }
    | o => o) rfl
  refine ⟨h.isRef, h.vacant, _, update_apply .., ?_⟩
  exact {
    rest := rfl
    inv := hr.inv
    elsewhere := fun w hne o ho => by rw [hr.other w hne]; exact h.kept _ o ho
    scope := ⟨_, hr.here, hs ref⟩ }

/-! ## Operations -/

theorem setLocalAt_shaped (hi : m.heap.Inv) (hs : m.scope? v = some s) (hsh : s.Shaped v) (hlt : i < s.slotCount) (x : Value) :
    ∃ m', (Env.heap v).setLocalAt i x m = .ok () m' ∧ m.Touches m' v ∧ m'.scope? v = some (s.put (i + 1) x) := by
  have hbase := hsh.base
  have hsize := hsh.size
  obtain ⟨m', hrun, hr⟩ := setWordAt_heap (x := x) (i := i - s.slotCount - 1) (k := i + 1) hi hs (by omega) (by omega)
  refine ⟨m', ?_, hr.touches, hr.here⟩
  rw [Env.setLocalAt, bind_of_ok (slotCount_scope hs hsh), hrun]

theorem setLocalAt_bound (hi : m.heap.Inv) (hs : m.scope? v = some s) (hb : s.Bound v fn n) (hlt : i < n) (x : Value) :
    ∃ m', (Env.heap v).setLocalAt i x m = .ok () m' ∧ m.Touches m' v ∧ m'.scope? v = some (s.put (i + 1) x) :=
  setLocalAt_shaped hi hs hb.shaped (hb.count ▸ hlt) x

/-- Code whose local slots fit into a scope. -/
structure Fits (m : Machine) (fn : FnId) (seq : Code.Sequence) : Prop where
  code : sequence fn m = .ok seq m
  room : scopeBase seq.slotCount + Frame.words ≤ maxWords
  flags : ∃ w, Frame.flags seq.slotCount Frame.codeFlag = .ok w

theorem Fits.of_lt (hseq : sequence fn m = .ok seq m) (h : seq.slotCount < 2 ^ 39) : m.Fits fn seq where
  code := hseq
  room := by
    unfold scopeBase Frame.words maxWords
    omega
  flags := Frame.exists_flags h

theorem sequence_apply (fn : FnId) (m : Machine) : sequence fn m =
    match m.functions.sequence fn with
    | .ok seq => .ok seq m
    | .error d => .error d m := by
  show (liftM (m.functions.sequence fn) : Exec Code.Sequence) m = _
  cases m.functions.sequence fn <;> rfl

theorem sequence_eq_ok : sequence fn m = .ok seq m' ↔ m' = m ∧ m.functions.sequence fn = .ok seq := by
  rw [sequence_apply]
  cases m.functions.sequence fn with
  | ok seq' => simp [eq_comm, and_comm]
  | error d => simp

theorem exists_of_flags {w : Value} (h : (liftM (Frame.flags n Frame.codeFlag) : Exec Value) m = .ok w m') :
    ∃ w, Frame.flags n Frame.codeFlag = .ok w := by
  cases hf : Frame.flags n Frame.codeFlag with
  | ok w => exact ⟨w, rfl⟩
  | error d =>
    rw [hf] at h
    cases h

/-- A scope can only be made for code that fits. -/
theorem newScope_fits (h : newScope self fn outer m = .ok v m') : ∃ seq, m.Fits fn seq := by
  unfold newScope at h
  split at h
  · cases h
  obtain ⟨seq, m₁, hseq, hrest⟩ := exists_of_bind h
  clear h
  obtain ⟨rfl, -⟩ := sequence_eq_ok.1 hseq
  dsimp only at hrest
  by_cases hroom : maxWords < scopeBase seq.slotCount + Frame.words
  · rw [if_pos hroom] at hrest
    cases hrest
  rw [if_neg hroom] at hrest
  obtain ⟨ref, m₂, -, hrest⟩ := exists_of_bind hrest
  obtain ⟨_, m₃, -, hrest⟩ := exists_of_bind hrest
  obtain ⟨_, m₄, -, hrest⟩ := exists_of_bind hrest
  obtain ⟨_, m₅, -, hrest⟩ := exists_of_bind hrest
  obtain ⟨_, m₆, -, hrest⟩ := exists_of_bind hrest
  obtain ⟨w, m₇, hw, -⟩ := exists_of_bind hrest
  exact ⟨seq, hseq, Nat.not_lt.1 hroom, exists_of_flags hw⟩

/-- A scope can only be bound to code that fits. -/
theorem rebindScope_fits {r : Unit} (h : rebindScope v fn m = .ok r m') : ∃ seq, m.Fits fn seq := by
  unfold rebindScope at h
  obtain ⟨seq, m₁, hseq, hrest⟩ := exists_of_bind h
  clear h
  obtain ⟨rfl, -⟩ := sequence_eq_ok.1 hseq
  obtain ⟨old, m₂, -, hrest⟩ := exists_of_bind hrest
  obtain ⟨locals, m₃, -, hrest⟩ := exists_of_bind hrest
  obtain ⟨self, m₄, -, hrest⟩ := exists_of_bind hrest
  dsimp only at hrest
  by_cases hroom : maxWords < scopeBase seq.slotCount + Frame.words
  · rw [if_pos hroom] at hrest
    cases hrest
  rw [if_neg hroom] at hrest
  obtain ⟨_, m₅, -, hrest⟩ := exists_of_bind hrest
  obtain ⟨w, m₆, hw, -⟩ := exists_of_bind hrest
  exact ⟨seq, hseq, Nat.not_lt.1 hroom, exists_of_flags hw⟩

theorem exists_methodOf (ho : outer = .nil ∨ ∃ t, m.Enclosed outer t) (hvac : ∀ o, m.heap.read v.toRef ≠ .ok o) :
    ∃ top, m.MethodOf v outer top := by
  rcases ho with rfl | ⟨t, ht⟩
  · exact ⟨v, .inl ⟨rfl, rfl⟩⟩
  · obtain ⟨s, hs, hsh, -⟩ := ht.scope
    refine ⟨_, .inr ⟨Value.isNil_of_isRef ht.isRef, fun he => ?_, s, hs, hsh, rfl⟩⟩
    exact hvac _ (he ▸ (scope?_eq_some.1 hs).2)

theorem MethodOf.isLocal (h : m.MethodOf v outer top) (hv : v.isRef = true) : top.isLocal = false := by
  rcases h with ⟨-, rfl⟩ | ⟨-, -, s, -, hsh, rfl⟩
  · exact Value.isLocal_of_isRef hv
  · exact hsh.control 3 (by decide)

/-- A scope for code that has not run. -/
structure Opened (s : Scope) (v : Value) (fn : FnId) (n : Nat) (r o top : Value) (slots : Nat → Value) : Prop
    extends s.Bound v fn n where
  receiver : s.receiver = r
  outer : s.word 4 = o
  method : s.word 3 = top
  block : s.word 7 = .nil
  slot : ∀ i < n, s.slot i = slots i

/-- What stands in the local slots at first. -/
def openSlots (seq : Code.Sequence) (i : Nat) : Value :=
  if seq.kwRestSlot.map (·.toNat) = some i then .uninit else .nil

theorem newScope_ends (hi : m.heap.Inv) (hf : m.Fits fn seq) (ho : outer = .nil ∨ ∃ t, m.Enclosed outer t)
    (hk : ∀ slot ∈ seq.kwRestSlot, slot.toNat < seq.slotCount) :
    Ends (newScope self fn outer) m (m.heap.pages.size + 1) fun v m' =>
      v.isRef = true ∧ (∀ o, m.heap.read v.toRef ≠ .ok o) ∧ m.Touches m' v ∧
        ∃ top s, m.MethodOf v outer top ∧ m'.scope? v = some s ∧
          Opened s v fn seq.slotCount self outer top (openSlots seq) := by
  obtain ⟨hseq, hroom, w, hw⟩ := hf
  obtain ⟨hfix, hslots⟩ := Frame.of_flags hw
  have hlocal : outer.isLocal = false := by
    rcases ho with rfl | ⟨t, ht⟩
    · exact Value.isLocal_nil
    · exact Value.isLocal_of_isRef ht.isRef
  have hguard : (!outer.isNil && !outer.isRef) = false := by
    rcases ho with rfl | ⟨t, ht⟩
    · rfl
    · rw [ht.isRef, Bool.not_true, Bool.and_false]
  rw [newScope, hguard]
  refine .step hseq ?_
  dsimp only
  rw [if_neg (by omega)]
  have hget (k : Nat) : (Array.replicate (scopeBase seq.slotCount + Frame.words) Value.nil).getD k .nil = .nil := by
    rw [Array.getD_eq_getD_getElem?, Array.getElem?_replicate]
    split_ifs <;> rfl
  refine .bind (alloc_fills (n := seq.slotCount) (c := ⟨.nil, .nil, fun _ => .nil, fun _ => .nil⟩) hi fun v =>
    ⟨rfl, rfl, Array.size_replicate, hget _, hget _, fun _ _ => hget _, fun _ _ => hget _⟩) ?_
  rintro v m₁ ⟨hv, hvac, m₂, hrun, hf⟩
  obtain ⟨top, htop⟩ := exists_methodOf ho hvac
  obtain ⟨m₃, hrun₃, hf⟩ := hf.setWordAt (i := -(scopeBase seq.slotCount : Int)) (x := self) (k := 0)
    (by unfold scopeBase; omega) (by omega) fun s hs => hs.put (by omega)
  obtain ⟨m₄, hrun₄, hf⟩ := hf.setWordAt (i := -1) (x := self) (k := seq.slotCount + 1) (by omega) (by omega)
    (d := ⟨self, self, fun _ => .nil, fun _ => .nil⟩) fun s hs => by
      refine (hs.put (by omega)).congr rfl (if_pos rfl) (fun i hi => ?_) fun j hj => ?_ <;> simp only [Contents.put] <;>
        rw [if_neg (by omega), if_neg (by omega)]
  refine .step hrun (.step hrun₃ (.step hrun₄ (hf.step (j := 1) rfl (by decide) fun m₅ hf => ?_)))
  refine .step (a := w) (by rw [hw]; rfl) (hf.step (j := 2) rfl (by decide) fun m₆ hf => ?_)
  refine hf.step (j := 6) rfl (by decide) fun m₇ hf => hf.step (j := 4) rfl (by decide) fun m₈ hf => ?_
  refine hf.step (j := 5) (x := .ofInt 0) rfl (by decide) fun m₉ hf => ?_
  obtain ⟨m₁₀, hrun, hf⟩ := hf.linkMethod htop
  refine .step hrun ?_
  obtain ⟨s, hs, hl⟩ := hf.scope
  have hopen : Opened s v fn seq.slotCount self outer top fun _ => .nil := by
    refine ⟨hl.bound rfl rfl hfix hslots rfl fun j hj h2 h6 => ?_, hl.receiver, hl.word 4 (by decide),
      hl.word 3 (by decide), hl.word 7 (by decide), hl.slot⟩
    obtain rfl | rfl | rfl | rfl | rfl | rfl : j = 0 ∨ j = 1 ∨ j = 3 ∨ j = 4 ∨ j = 5 ∨ j = 7 := by omega
    · exact Value.isLocal_nil
    · exact Value.isLocal_of_isRef hv
    · exact htop.isLocal hv
    · exact hlocal
    · exact Value.isLocal_of_isFixnum (Value.isFixnum_ofInt 0)
    · exact Value.isLocal_nil
  cases hslot : seq.kwRestSlot with
  | none =>
    refine .of_ok rfl ⟨hv, hvac, hf.toTouches, top, s, htop, hs, hopen.toBound, hopen.receiver, hopen.outer,
      hopen.method, hopen.block, fun i hi => ?_⟩
    rw [hopen.slot i hi, openSlots, hslot]
    rfl
  | some slot =>
    obtain ⟨m₁₁, hrun, ht, hs'⟩ := setLocalAt_bound hf.inv hs hopen.toBound (hk slot hslot) .uninit
    obtain ⟨hb, hr, hword, hput⟩ := hopen.toBound.put (x := .uninit) (hk slot hslot)
    refine .step hrun (.of_ok rfl ⟨hv, hvac, hf.toTouches.trans ht, top, _, htop, hs', hb, hr.trans hopen.receiver,
      (hword 4 (by decide)).trans hopen.outer, (hword 3 (by decide)).trans hopen.method,
      (hword 7 (by decide)).trans hopen.block, fun i hi => ?_⟩)
    rw [hput i hi, hopen.slot i hi, openSlots, hslot]
    simp only [Option.map_some, Option.some.injEq, eq_comm (a := i)]

/-- A scope as it is bound to other code, with `n` local slots. -/
structure Rebinds (s s' : Scope) (n : Nat) : Prop where
  receiver : s'.receiver = s.receiver
  outer : s'.word 4 = s.word 4
  method : s'.word 3 = s.word 3
  block : s'.word 7 = s.word 7
  kept : ∀ i < n, i < s.slotCount → s'.slot i = s.slot i
  fresh : ∀ i < n, s.slotCount ≤ i → s'.slot i = .nil

theorem rebindScope_apply (hi : m.heap.Inv) (hf : m.Fits fn seq) (hs : m.scope? v = some s) (hsh : s.Shaped v)
    (ho : m.MethodOf v (s.word 4) (s.word 3)) :
    ∃ m' s', rebindScope v fn m = .ok () m' ∧ m.Touches m' v ∧ m'.scope? v = some s' ∧
      s'.Bound v fn seq.slotCount ∧ Rebinds s s' seq.slotCount := by
  obtain ⟨hseq, hroom, w, hw⟩ := hf
  obtain ⟨hfix, hslots⟩ := Frame.of_flags hw
  have hreads := reads_scope hs hsh
  obtain ⟨m₁, hrun₁, hr⟩ : ∃ m₁, update v (fun
      | .scope s₀ => .scope { s₀ with words := (s.rebuilt seq.slotCount).words, base := scopeBase seq.slotCount }
      | o => o) m = .ok () m₁ ∧ m.Rewritten m₁ v (s.rebuilt seq.slotCount) :=
    ⟨_, update_apply .., rewritten_update hi hs rfl⟩
  have hf : m.Fills m₁ v seq.slotCount _ := ⟨hr.touches, _, hr.here, hsh.rebuilt seq.slotCount⟩
  obtain ⟨m₂, hrun₂, hf⟩ := hf.setControl (i := Frame.flagWord) (j := 2) rfl (by decide) w
  obtain ⟨m₃, hrun₃, hf⟩ := hf.setControl (i := Frame.fnWord) (j := 6) rfl (by decide) (.ofInt fn.id.toNat)
  obtain ⟨m₄, hrun₄, hf⟩ := hf.setControl (i := Frame.envWord) (j := 1) rfl (by decide) v
  obtain ⟨m₅, hrun₅, hf⟩ := hf.linkMethod ho
  obtain ⟨s', hs', hl⟩ := hf.scope
  refine ⟨m₅, s', ?_, hf.toTouches, hs', hl.bound rfl rfl hfix hslots rfl fun j hj h2 h6 => ?_, ?_⟩
  · rw [rebindScope, bind_of_ok hseq, bind_of_ok (asScope_apply hs)]
    dsimp only
    rw [bind_of_ok hreads.locals, bind_of_ok hreads.self, if_neg (by omega)]
    refine (bind_of_ok hrun₁).trans ((bind_of_ok (a := w) (by rw [hw]; rfl)).trans ?_)
    exact (bind_of_ok hrun₂).trans ((bind_of_ok hrun₃).trans ((bind_of_ok hrun₄).trans hrun₅))
  · obtain rfl | rfl | rfl | rfl | rfl | rfl : j = 0 ∨ j = 1 ∨ j = 3 ∨ j = 4 ∨ j = 5 ∨ j = 7 := by omega
    · exact hsh.control 0 (by decide)
    · exact hsh.env ▸ hsh.control 1 (by decide)
    · exact hsh.control 3 (by decide)
    · exact hsh.control 4 (by decide)
    · exact hsh.control 5 (by decide)
    · exact hsh.control 7 (by decide)
  · refine ⟨hl.receiver, hl.word 4 (by decide), hl.word 3 (by decide), hl.word 7 (by decide), fun i hi hlt => ?_,
      fun i hi hle => ?_⟩
    · exact (hl.slot i hi).trans (if_pos hlt)
    · exact (hl.slot i hi).trans (if_neg (by omega))

/-- A scope as it is copied to `w`. -/
structure Copies (s s' : Scope) (v w : Value) : Prop where
  layer : s'.layer = s.layer
  outer : s'.word 4 = s.word 4
  block : s'.word 7 = s.word 7
  method : s'.word 3 = if s.word 3 = v then w else s.word 3

theorem Fills.copies (h : m.Fills m' w n c) (hb : s.Bound v fn n) (hw : w.isRef = true) (hfirst : c.first = s.receiver)
    (hreceiver : c.receiver = s.receiver) (hlocals : c.locals = s.slot) (henv : c.control 1 = w)
    (hmethod : c.control 3 = if s.word 3 = v then w else s.word 3)
    (hrest : ∀ j, j ≠ 1 → j ≠ 3 → c.control j = s.word j) :
    ∃ s', m'.scope? w = some s' ∧ s'.Bound w fn n ∧ Copies s s' v w := by
  obtain ⟨hsh, rfl, hcode⟩ := hb
  obtain ⟨s', hs', hl⟩ := h.scope
  have hflags := hrest 2 (by decide) (by decide)
  have hbound : s'.Bound w fn s.slotCount := by
    refine hl.bound (hfirst.trans hreceiver.symm) henv (by rw [hflags]; exact hsh.flags) (by rw [hflags]; rfl)
      ((hrest 6 (by decide) (by decide)).trans hcode) fun j hj _ _ => ?_
    by_cases h1 : j = 1
    · rw [h1, henv]
      exact Value.isLocal_of_isRef hw
    by_cases h3 : j = 3
    · rw [h3, hmethod]
      split_ifs
      · exact Value.isLocal_of_isRef hw
      · exact hsh.control 3 (by decide)
    rw [hrest j h1 h3]
    exact hsh.control j hj
  refine ⟨s', hs', hbound, ?_, (hl.word 4 (by decide)).trans (hrest 4 (by decide) (by decide)),
    (hl.word 7 (by decide)).trans (hrest 7 (by decide) (by decide)), (hl.word 3 (by decide)).trans hmethod⟩
  rw [Scope.layer, Scope.layer, hl.receiver, hreceiver, hbound.count]
  refine congrArg (Layer.mk _) (List.map_congr_left fun i hi => ?_)
  rw [hl.slot i (List.mem_range.1 hi), hlocals]

theorem dupScope_ends (hi : m.heap.Inv) (hs : m.scope? v = some s) (hb : s.Bound v fn n) :
    Ends (dupScope v) m (m.heap.pages.size + 1) fun w m' =>
      w.isRef = true ∧ (∀ o, m.heap.read w.toRef ≠ .ok o) ∧ m.Touches m' w ∧
        ∃ s', m'.scope? w = some s' ∧ s'.Bound w fn n ∧ Copies s s' v w := by
  have hsh := hb.shaped
  have hl := hsh.laid
  rw [hb.count] at hl
  refine .step (asScope_apply hs) (.bind (alloc_fills hi fun w =>
    ⟨rfl, hl.base, hl.size, hl.first, hl.receiver, hl.slot, hl.word⟩) ?_)
  rintro w m₁ ⟨hw, hvac, m₂, hrun, hf⟩
  refine .step hrun (hf.step (j := 1) rfl (by decide) fun m₃ hf => ?_)
  refine .step (hf.wordAt (i := Frame.methodWord) (j := 3) rfl (by decide)) ?_
  have hrest (j : Nat) (h1 : j ≠ 1) : (if 1 = j then w else s.word j) = s.word j := if_neg h1.symm
  split_ifs with heq
  · have htop : s.word 3 = v := by
      rw [← hsh.self]
      exact beq_iff_eq.1 heq
    obtain ⟨m₄, hrun, hf⟩ := hf.setControl (i := Frame.methodWord) (j := 3) rfl (by decide) w
    refine .step hrun (.of_ok rfl ⟨hw, hvac, hf.toTouches, hf.copies hb hw rfl rfl rfl rfl (if_pos htop).symm
      fun j h1 h3 => ?_⟩)
    exact (if_neg h3.symm).trans (hrest j h1)
  · have htop : s.word 3 ≠ v := by
      rw [← hsh.self]
      exact fun he => heq (beq_iff_eq.2 he)
    exact .of_ok rfl ⟨hw, hvac, hf.toTouches, hf.copies hb hw rfl rfl rfl rfl (if_neg htop).symm
      fun j h1 _ => hrest j h1⟩

end Machine

end RubyMachine
