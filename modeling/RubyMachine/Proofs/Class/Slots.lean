import RubyMachine.Proofs.Cache.Lookup

/-! Slots of instance variables. A class uses the slots that were given out along its superclass chain. A
slot stays that of its name for good, and different names have different slots as long as no number is given
out that a class below uses already. -/

namespace RubyMachine.ClassTable

variable {t : ClassTable} {c d : Nat} {x y : Ident} {i : Nat}

/-! ## Chains -/

theorem chain_of_lt (h : c < t.size) : ∃ above, t.chain c = c :: above ∧
    (above = [] ∨ ∃ s < c, above = t.chain s) := by
  rw [chain, if_neg (Nat.not_le.2 h)]
  split
  · split
    · exact ⟨_, rfl, .inr ⟨_, ‹_›, rfl⟩⟩
    · exact ⟨[], rfl, .inl rfl⟩
  · exact ⟨[], rfl, .inl rfl⟩

theorem mem_chain_self (h : c < t.size) : c ∈ t.chain c := by
  obtain ⟨above, hchain, -⟩ := chain_of_lt h
  exact hchain ▸ List.mem_cons_self

theorem chain_of_le (h : t.size ≤ c) : t.chain c = [] := by rw [chain, if_pos h]

/-- A chain goes down in numbers, and from each of its classes on it is the chain of that class. -/
theorem chain_split (h : c ∈ t.chain d) : ∃ below, t.chain d = below ++ t.chain c ∧ c ∉ below ∧ c ≤ d := by
  induction d using Nat.strongRecOn with
  | ind d ih =>
    rcases Nat.lt_or_ge d t.size with hd | hd
    · obtain ⟨above, hchain, habove⟩ := chain_of_lt hd
      rcases List.mem_cons.1 (hchain ▸ h) with rfl | hc
      · exact ⟨[], rfl, List.not_mem_nil, le_rfl⟩
      · rcases habove with rfl | ⟨s, hs, rfl⟩
        · exact absurd hc List.not_mem_nil
        obtain ⟨below, hb, hnot, hle⟩ := ih s hs hc
        refine ⟨d :: below, by rw [hchain, hb, List.cons_append], ?_, hle.trans hs.le⟩
        rw [List.mem_cons, not_or]
        exact ⟨(hle.trans_lt hs).ne, hnot⟩
    · rw [chain_of_le hd] at h
      exact absurd h List.not_mem_nil

/-- Of two classes of a chain one is above the other. -/
theorem chain_linear {e : Nat} (hc : c ∈ t.chain d) (he : e ∈ t.chain d) : c ∈ t.chain e ∨ e ∈ t.chain c := by
  induction d using Nat.strongRecOn with
  | ind d ih =>
    rcases Nat.lt_or_ge d t.size with hd | hd
    · obtain ⟨above, hchain, habove⟩ := chain_of_lt hd
      rcases List.mem_cons.1 (hchain ▸ hc) with rfl | hc'
      · exact .inr he
      rcases List.mem_cons.1 (hchain ▸ he) with rfl | he'
      · exact .inl hc
      rcases habove with rfl | ⟨s, hs, rfl⟩
      · exact absurd hc' List.not_mem_nil
      · exact ih s hs hc' he'
    · rw [chain_of_le hd] at hc
      exact absurd hc List.not_mem_nil

theorem entry_modify_of_lt (h : c < t.size) (f : Module → Module) (e : Nat) :
    (t.modify c f).entry e = if e = c then f (t.entry c) else t.entry e := by
  unfold entry modify
  rw [Array.getD_eq_getD_getElem?, Array.getD_eq_getD_getElem?, Array.getD_eq_getD_getElem?, Array.getElem?_modify]
  by_cases he : e = c
  · rw [he, if_pos rfl, if_pos rfl, Array.getElem?_eq_getElem h]
    rfl
  · rw [if_neg (Ne.symm he), if_neg he]

theorem entry_of_le (h : t.size ≤ c) : t.entry c = default := by
  rw [entry, Array.getD_eq_getD_getElem?, Array.getElem?_eq_none h]
  rfl

theorem entry_push (t : ClassTable) (e : Module) (c : Nat) :
    (t.push e).entry c = if c = t.size then e else t.entry c := by
  unfold entry push
  rw [Array.getD_eq_getD_getElem?, Array.getD_eq_getD_getElem?, Array.getElem?_push]
  split_ifs with h h' h'
  · rfl
  · exact absurd h h'
  · exact absurd h' h
  · rfl

theorem modify_of_le (h : t.size ≤ c) (f : Module → Module) : t.modify c f = t := by
  have hi (i : Nat) : (t.modules.modify c f)[i]? = t.modules[i]? := by
    rw [Array.getElem?_modify]
    split
    · rename_i he
      rw [← he, Array.getElem?_eq_none h, Option.map_none]
    · rfl
  rw [modify, Array.ext_getElem? hi]

/-! ## The slots a class uses -/

/-- The slots given out along the chain of a class, those of the class itself first. -/
def slots (t : ClassTable) (c : Nat) : List (Ident × Nat) := (t.chain c).flatMap fun e => (t.entry e).ivarSlots

theorem ivarSlot?_eq (t : ClassTable) (c : Nat) (x : Ident) : t.ivarSlot? c x = (t.slots c).lookup x := by
  unfold ivarSlot? slots
  induction t.chain c with
  | nil => rfl
  | cons e es ih =>
    rw [List.findSome?_cons, List.flatMap_cons, List.lookup_append, ih]
    cases (t.entry e).ivarSlots.lookup x <;> rfl

theorem ivarCount_eq (t : ClassTable) (c : Nat) : t.ivarCount c = (t.slots c).length := by
  have counted (n : Nat) (es : List Nat) : es.foldl (fun n e => n + (t.entry e).ivarSlots.length) n =
      n + (es.flatMap fun e => (t.entry e).ivarSlots).length := by
    induction es generalizing n with
    | nil => rfl
    | cons e es ih =>
      rw [List.foldl_cons, ih, List.flatMap_cons, List.length_append, Nat.add_assoc]
  rw [ivarCount, counted, Nat.zero_add, slots]

theorem slots_of_mem_chain (h : c ∈ t.chain d) : ∃ below, t.slots d = below ++ t.slots c := by
  obtain ⟨below, hb, -⟩ := chain_split h
  exact ⟨_, by rw [slots, hb, List.flatMap_append, ← slots]⟩

theorem ivarCount_le (h : c ∈ t.chain d) : t.ivarCount c ≤ t.ivarCount d := by
  obtain ⟨below, hb⟩ := slots_of_mem_chain h
  rw [ivarCount_eq, ivarCount_eq, hb, List.length_append]
  exact Nat.le_add_left _ _

/-- A slot that is given out in a class is one more slot of each class below, between those of the class and
those of its superclasses, among which the name had none. -/
theorem slots_ivarSlot (hc : c < t.size) (hx : t.ivarSlot? c x = none) (d : Nat) :
    (c ∉ t.chain d ∧ (t.ivarSlot c x).2.slots d = t.slots d) ∨
    (c ∈ t.chain d ∧ ∃ l r, t.slots d = l ++ r ∧ r.lookup x = none ∧
      (t.ivarSlot c x).2.slots d = l ++ (x, t.ivarCount c) :: r) := by
  have hchain := (alike_ivarSlot t c x).chain d
  have hnew : (t.ivarSlot c x).2 =
      t.modify c fun m => { m with ivarSlots := m.ivarSlots ++ [(x, t.ivarCount c)] } := by
    rw [ivarSlot, hx]
  have hother {e : Nat} (he : e ≠ c) : ((t.ivarSlot c x).2.entry e).ivarSlots = (t.entry e).ivarSlots := by
    rw [hnew, entry_modify_of_lt hc, if_neg he]
  have hsame {es : List Nat} (hes : c ∉ es) : (es.flatMap fun e => ((t.ivarSlot c x).2.entry e).ivarSlots) =
      es.flatMap fun e => (t.entry e).ivarSlots :=
    List.flatMap_congr fun e he => hother fun h => hes (h ▸ he)
  by_cases hd : c ∈ t.chain d
  · refine .inr ⟨hd, ?_⟩
    obtain ⟨below, hb, hbelow, -⟩ := chain_split hd
    obtain ⟨above, ha, habove⟩ := chain_of_lt hc
    have hfree : c ∉ above := by
      rcases habove with rfl | ⟨s, hs, rfl⟩
      · exact List.not_mem_nil
      · exact fun h => absurd (chain_split h).choose_spec.2.2 (Nat.not_le.2 hs)
    refine ⟨below.flatMap (fun e => (t.entry e).ivarSlots) ++ (t.entry c).ivarSlots,
      above.flatMap fun e => (t.entry e).ivarSlots, ?_, ?_, ?_⟩
    · rw [slots, hb, ha, List.flatMap_append, List.flatMap_cons, List.append_assoc]
    · rw [ivarSlot?_eq, slots, ha, List.flatMap_cons, List.lookup_append, Option.or_eq_none_iff] at hx
      exact hx.2
    · rw [slots, hchain, hb, ha, List.flatMap_append, List.flatMap_cons, hsame hbelow, hsame hfree, hnew,
        entry_modify_of_lt hc, if_pos rfl]
      simp only [List.append_assoc, List.cons_append, List.nil_append]
  · exact .inl ⟨hd, by rw [slots, hchain, hsame hd, slots]⟩

theorem ivarSlot_of_some (h : t.ivarSlot? c x = some i) : t.ivarSlot c x = (i, t) := by rw [ivarSlot, h]

theorem ivarSlot_of_none (h : t.ivarSlot? c x = none) : (t.ivarSlot c x).1 = t.ivarCount c := by rw [ivarSlot, h]

/-- What slots names have after one was given out. -/
theorem ivarSlot?_ivarSlot (hc : c < t.size) (hx : t.ivarSlot? c x = none) (d : Nat) (y : Ident) :
    (t.ivarSlot c x).2.ivarSlot? d y =
      (t.ivarSlot? d y).or (if c ∈ t.chain d ∧ y = x then some (t.ivarCount c) else none) := by
  rw [ivarSlot?_eq, ivarSlot?_eq]
  rcases slots_ivarSlot hc hx d with ⟨hd, hs⟩ | ⟨hd, l, r, hs, hr, hs'⟩
  · rw [hs, if_neg fun h => hd h.1, Option.or_none]
  · rw [hs, hs', List.lookup_append, List.lookup_append, List.lookup_cons, Option.or_assoc]
    by_cases hy : y = x
    · rw [hy, beq_self_eq_true, hr, if_pos ⟨hd, rfl⟩]
      rfl
    · rw [beq_false_of_ne hy, if_neg fun h => hy h.2, Option.or_none]

/-- A name keeps its slot when other slots are given out. -/
theorem ivarSlot?_stable (h : t.ivarSlot? d y = some i) (c : Nat) (x : Ident) :
    (t.ivarSlot c x).2.ivarSlot? d y = some i := by
  cases hx : t.ivarSlot? c x with
  | some j => rwa [ivarSlot_of_some hx]
  | none =>
    rcases Nat.lt_or_ge c t.size with hc | hc
    · rw [ivarSlot?_ivarSlot hc hx, h, Option.some_or]
    · rw [ivarSlot, hx]
      dsimp only
      rwa [modify_of_le hc]

/-- The slot that is given out to a name is the one it has from then on. -/
theorem ivarSlot?_self (hc : c < t.size) (x : Ident) :
    (t.ivarSlot c x).2.ivarSlot? c x = some (t.ivarSlot c x).1 := by
  cases hx : t.ivarSlot? c x with
  | some j => rw [ivarSlot_of_some hx, hx]
  | none =>
    rw [ivarSlot?_ivarSlot hc hx, hx, Option.none_or, if_pos ⟨mem_chain_self hc, rfl⟩, ivarSlot_of_none hx]

/-! ## More classes -/

section Grown

variable {t' : ClassTable} (hsize : t.size ≤ t'.size)
  (hsuper : ∀ c < t.size, (t'.entry c).super = (t.entry c).super)
  (hslots : ∀ c, (t'.entry c).ivarSlots = (t.entry c).ivarSlots)

include hsize hsuper

theorem chain_grown (h : c < t.size) : t'.chain c = t.chain c := by
  induction c using Nat.strongRecOn with
  | ind c ih =>
    rw [chain, chain, if_neg (Nat.not_le.2 h), if_neg (Nat.not_le.2 (h.trans_le hsize)), hsuper c h]
    split
    · split
      · rw [ih _ ‹_› (‹_ < c›.trans h)]
      · rfl
    · rfl

include hslots

theorem slots_grown (h : c < t.size) : t'.slots c = t.slots c := by
  rw [slots, chain_grown hsize hsuper h]
  simp only [hslots]
  rfl

/-- A new class has the slots of some class that was there, or none. -/
theorem slots_grown_cases (c : Nat) : t'.slots c = [] ∨ ∃ d < t.size, t'.slots c = t.slots d := by
  induction c using Nat.strongRecOn with
  | ind c ih =>
    rcases Nat.lt_or_ge c t.size with h | h
    · exact .inr ⟨c, h, slots_grown hsize hsuper hslots h⟩
    rcases Nat.lt_or_ge c t'.size with h' | h'
    · obtain ⟨above, ha, habove⟩ := chain_of_lt h'
      have hown : (t'.entry c).ivarSlots = [] := by
        rw [hslots, entry_of_le h]
        rfl
      rw [slots, ha, List.flatMap_cons, hown, List.nil_append]
      rcases habove with rfl | ⟨s, hs, rfl⟩
      · exact .inl rfl
      · exact ih s hs
    · exact .inl (by rw [slots, chain_of_le h', List.flatMap_nil])

end Grown

/-! ## Different slots -/

/-- Every slot is below the number that is given out next, and different names have different slots. -/
structure Apart (t : ClassTable) : Prop where
  below : ∀ c, ∀ s ∈ t.slots c, s.2 < t.ivarCount c
  apart : ∀ c, ∀ s ∈ t.slots c, ∀ s' ∈ t.slots c, s.2 = s'.2 → s.1 = s'.1

/-- If a slot is given out to the name, no class below uses its number already. -/
def Clear (t : ClassTable) (c : Nat) (x : Ident) : Prop :=
  t.ivarSlot? c x = none → ∀ d < t.size, c ∈ t.chain d → ∀ s ∈ t.slots d, s.2 ≠ t.ivarCount c

instance (t : ClassTable) (c : Nat) (x : Ident) : Decidable (t.Clear c x) := by
  unfold Clear
  infer_instance

/-- No number is used below as long as superclasses come first. -/
theorem Apart.clear (h : t.Apart) (hbelow : ∀ d, c ∈ t.chain d → d ≠ c → (t.entry d).ivarSlots = []) (x : Ident) :
    t.Clear c x := by
  intro _ d _ hd s hs
  obtain ⟨e, he, hse⟩ := List.mem_flatMap.1 hs
  have habove : e ∈ t.chain c := by
    rcases chain_linear hd he with hce | hec
    · by_cases heq : e = c
      · exact heq ▸ hce
      · rw [hbelow e hce heq] at hse
        cases hse
    · exact hec
  exact (h.below c s (List.mem_flatMap.2 ⟨e, habove, hse⟩)).ne

theorem Apart.grown {t' : ClassTable} (h : t.Apart) (hsize : t.size ≤ t'.size)
    (hsuper : ∀ c < t.size, (t'.entry c).super = (t.entry c).super)
    (hslots : ∀ c, (t'.entry c).ivarSlots = (t.entry c).ivarSlots) : t'.Apart := by
  constructor
  · intro c s hs
    rw [ivarCount_eq]
    rcases slots_grown_cases hsize hsuper hslots c with he | ⟨d, -, he⟩
    · rw [he] at hs
      cases hs
    · rw [he] at hs ⊢
      exact ivarCount_eq t d ▸ h.below d s hs
  · intro c s hs s' hs'
    rcases slots_grown_cases hsize hsuper hslots c with he | ⟨d, -, he⟩
    · rw [he] at hs
      cases hs
    · rw [he] at hs hs'
      exact h.apart d s hs s' hs'

theorem Apart.ivarSlot (h : t.Apart) (hc : c < t.size) (hx : t.Clear c x) : (t.ivarSlot c x).2.Apart := by
  cases hn : t.ivarSlot? c x with
  | some j => rwa [ivarSlot_of_some hn]
  | none =>
    have clear {d : Nat} (hd : c ∈ t.chain d) : ∀ s ∈ t.slots d, s.2 ≠ t.ivarCount c := by
      refine hx hn d ?_ hd
      by_contra hge
      rw [chain_of_le (Nat.not_lt.1 hge)] at hd
      exact absurd hd List.not_mem_nil
    constructor
    · intro d s hs
      rw [ivarCount_eq]
      have hlt := h.below d s
      rw [ivarCount_eq] at hlt
      rcases slots_ivarSlot hc hn d with ⟨-, he⟩ | ⟨hd, l, r, he, -, he'⟩
      · rw [he] at hs ⊢
        exact hlt hs
      · have hle := ivarCount_le hd
        rw [ivarCount_eq t d, he] at hle
        rw [he] at hlt
        rw [he'] at hs ⊢
        rw [List.length_append, List.length_cons] at *
        rcases List.mem_append.1 hs with hs | hs
        · exact (hlt (List.mem_append_left _ hs)).trans (Nat.lt_succ_self _)
        · rcases List.mem_cons.1 hs with rfl | hs
          · exact Nat.lt_succ_of_le hle
          · exact (hlt (List.mem_append_right _ hs)).trans (Nat.lt_succ_self _)
    · intro d s hs s' hs' heq
      rcases slots_ivarSlot hc hn d with ⟨-, he⟩ | ⟨hd, l, r, he, -, he'⟩
      · rw [he] at hs hs'
        exact h.apart d s hs s' hs' heq
      · have old {s : Ident × Nat} (hs : s ∈ (t.ivarSlot c x).2.slots d) : s = (x, t.ivarCount c) ∨ s ∈ t.slots d := by
          rw [he'] at hs
          rw [he]
          simp only [List.mem_append, List.mem_cons] at hs ⊢
          tauto
        rcases old hs with rfl | hs <;> rcases old hs' with rfl | hs'
        · rfl
        · exact absurd heq.symm (clear hd s' hs')
        · exact absurd heq (clear hd s hs)
        · exact h.apart d s hs s' hs' heq

end RubyMachine.ClassTable
