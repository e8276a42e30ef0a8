import RubyMachine.Proofs.Arguments.Shortcut
import RubyMachine.Proofs.Arguments.Texts
import RubyMachine.Proofs.Value.Kinds

/-! Keywords are neither lost nor doubled: each lies in the slot of its parameter, or else in the hash for surplus ones,
and the first that nothing takes is what a call is refused for (`keywords_exact`). -/

namespace RubyMachine

open Exec Machine Code

/-! ## Entries with different keys -/

namespace Machine

variable {m : Machine} {es es' : List (Value × Value)} {k v : Value}

/-- The hash of these entries, in their order. -/
def collected (m : Machine) (es : List (Value × Value)) : Dict := ⟨(es.map fun e => ⟨m.keyId e.1, e.1, e.2⟩).toArray⟩

theorem toList_collected (m : Machine) (es : List (Value × Value)) : (m.collected es).toList = es := by
  rw [collected, Dict.toList, List.map_map]
  exact List.map_id es

/-- No two entries have the same key. A key that is a name is the word of this name. -/
structure Distinct (m : Machine) (es : List (Value × Value)) : Prop where
  symbols : ∀ e ∈ es, e.1.isSymbol = true → e.1 = .ofSymbol e.1.toSymbol
  keys : (es.map fun e => m.keyId e.1).Nodup

/-- A new key comes last. -/
theorem insert_collected (h : m.keyId k ∉ es.map fun e => m.keyId e.1) (v : Value) :
    (m.collected es).insert (m.keyId k) k v = m.collected (es ++ [(k, v)]) := by
  have hnone : (m.collected es).entries.findIdx? (fun e => e.id == m.keyId k) = none := by
    rw [Array.findIdx?_eq_none_iff]
    intro e he
    rw [collected, List.mem_toArray, List.mem_map] at he
    obtain ⟨e', he', rfl⟩ := he
    rw [beq_eq_false_iff_ne]
    exact fun hid => h (List.mem_map.2 ⟨e', he', hid⟩)
  rw [Dict.insert, hnone]
  simp [collected]

/-- Storing entries with different keys keeps all of them. -/
theorem stored_collected (h : ((es ++ es').map fun e => m.keyId e.1).Nodup) :
    m.stored (m.collected es) es' = m.collected (es ++ es') := by
  induction es' generalizing es with
  | nil => rw [List.append_nil]; rfl
  | cons e es' ih =>
    have hsplit : es ++ e :: es' = es ++ [e] ++ es' := List.append_cons es e es'
    have hnew : m.keyId e.1 ∉ es.map fun e => m.keyId e.1 := by
      rw [List.map_append, List.map_cons, List.nodup_append] at h
      exact fun hmem => h.2.2 _ hmem _ List.mem_cons_self rfl
    have hfirst : m.stored (m.collected es) (e :: es') = m.stored ((m.collected es).insert (m.keyId e.1) e.1 e.2) es' := rfl
    rw [hfirst, insert_collected hnew, hsplit, ih (hsplit ▸ h)]

theorem stored_empty (h : (es.map fun e => m.keyId e.1).Nodup) : m.stored {} es = m.collected es :=
  @stored_collected m [] es h

end Machine

/-! ## Keys that are declared -/

namespace Code.Params

variable {p : Params} {m : Machine} {es : List (Value × Value)} {key : Value} {k : Keyword} {f : Nat → Value}

/-- The key is the name of a keyword. -/
def Declares (p : Params) (key : Value) : Prop := ∃ k ∈ p.keywords, key = .ofSymbol k.name

instance (p : Params) (key : Value) : Decidable (p.Declares key) :=
  inferInstanceAs (Decidable (∃ k ∈ p.keywords, key = .ofSymbol k.name))

/-- The entries that are for no keyword. -/
def undeclared (p : Params) (es : List (Value × Value)) : List (Value × Value) := es.filter fun e => !p.Declares e.1

theorem isSome_slotFor? (hsym : key.isSymbol = true → key = .ofSymbol key.toSymbol) :
    (p.slotFor? key).isSome = true ↔ p.Declares key := by
  rw [slotFor?, Option.isSome_map, Declares]
  by_cases hs : key.isSymbol = true
  · rw [if_pos hs, keywordSlot?, Option.isSome_map, List.find?_isSome]
    refine exists_congr fun k => and_congr_right fun _ => ?_
    rw [beq_iff_eq]
    exact ⟨fun h => h ▸ hsym hs, fun h => by rw [h, Value.toSymbol_ofSymbol]⟩
  · rw [if_neg hs]
    constructor
    · intro h
      cases h
    · rintro ⟨k, -, rfl⟩
      exact absurd (Value.isSymbol_ofSymbol _) hs

theorem surplus_eq (hsym : ∀ e ∈ es, e.1.isSymbol = true → e.1 = .ofSymbol e.1.toSymbol) :
    p.surplus es = p.undeclared es := by
  refine List.filter_congr fun e he => ?_
  rw [← Option.not_isSome, Bool.eq_iff_iff, Bool.not_eq_true', Bool.not_eq_true', decide_eq_false_iff_not,
    ← isSome_slotFor? (hsym e he), Bool.not_eq_true]

/-- Every keyword has a name and a slot of its own. -/
structure Separate (p : Params) : Prop where
  names : (p.keywords.map Keyword.name).Nodup
  slots : (p.keywords.map fun k => k.slot.toNat).Nodup

theorem Separate.slotFor? (hp : p.Separate) (hk : k ∈ p.keywords) : p.slotFor? (.ofSymbol k.name) = some k.slot.toNat := by
  have hfind : p.keywords.find? (fun k' => k'.name == k.name) = some k := by
    obtain ⟨k', hk'⟩ : ∃ k', p.keywords.find? (fun k' => k'.name == k.name) = some k' :=
      Option.isSome_iff_exists.1 (List.find?_isSome.2 ⟨k, hk, beq_self_eq_true k.name⟩)
    have hname : k'.name = k.name := by simpa using List.find?_some hk'
    rwa [List.inj_on_of_nodup_map hp.names (List.mem_of_find?_eq_some hk') hk hname] at hk'
  rw [Params.slotFor?, if_pos (Value.isSymbol_ofSymbol _), Value.toSymbol_ofSymbol, keywordSlot?, hfind]
  rfl

/-- A keyword's slot is for its own name only. -/
theorem Separate.eq_of_slotFor? (hp : p.Separate) (hk : k ∈ p.keywords)
    (hsym : key.isSymbol = true → key = .ofSymbol key.toSymbol) (h : p.slotFor? key = some k.slot.toNat) :
    key = .ofSymbol k.name := by
  obtain ⟨k', hk', rfl⟩ : p.Declares key := (isSome_slotFor? hsym).1 (by rw [h]; rfl)
  rw [hp.slotFor? hk', Option.some_inj] at h
  rw [List.inj_on_of_nodup_map hp.slots hk' hk h]

/-- What a keyword's slot holds in the end is the value that the hash has for its name. -/
theorem Separate.route_eq (hp : p.Separate) (hk : k ∈ p.keywords)
    (hsym : ∀ e ∈ es, e.1.isSymbol = true → e.1 = .ofSymbol e.1.toSymbol) (hkeys : (es.map Prod.fst).Nodup) :
    p.route f es k.slot.toNat = (es.lookup (.ofSymbol k.name)).getD (f k.slot.toNat) := by
  induction es generalizing f with
  | nil => rfl
  | cons e es ih =>
    obtain ⟨key, v⟩ := e
    rw [List.map_cons, List.nodup_cons] at hkeys
    rw [route, ih (fun e he => hsym e (List.mem_cons_of_mem _ he)) hkeys.2, List.lookup_cons]
    by_cases he : key = .ofSymbol k.name
    · subst he
      have hnone : es.lookup (.ofSymbol k.name) = none := by
        rw [List.lookup_eq_none_iff]
        intro e he
        rw [bne_iff_ne]
        exact fun hkey => hkeys.1 (List.mem_map.2 ⟨e, he, hkey.symm⟩)
      rw [hnone, hp.slotFor? hk, beq_self_eq_true, Option.getD_none, Option.elim_some, Function.update_self]
      rfl
    · rw [beq_false_of_ne (Ne.symm he)]
      dsimp only
      cases hs : p.slotFor? key with
      | none => rfl
      | some s =>
        have hne : k.slot.toNat ≠ s := fun h => he (hp.eq_of_slotFor? hk (hsym _ List.mem_cons_self) (h ▸ hs))
        rw [Option.elim_some, Function.update_of_ne hne]

end Code.Params

/-! ## A key that nothing takes -/

/-- The call is refused for this key. -/
def Attempt.refuse (k : Value) : Attempt Unit := do
  Attempt.fail (.unknownKeyword (← keywordText k))

namespace Attempt

variable {k : Value} {m : Machine}

theorem refuse_bind (k : Value) (f : Unit → Attempt Unit) : (refuse k >>= f) = refuse k := by
  rw [refuse, bind_assoc]
  rfl

/-- Refusing ends in a failure, if the key has a text. -/
theorem refuse_run (k : Value) (m : Machine) : (refuse k).run m =
    match m.inspect k with
    | .ok text => .ok (.error (Failure.of (.unknownKeyword text))) m
    | .error d => .error d m := by
  have hinspect : keywordText k m = (liftM (m.inspect k) : Exec String) m := rfl
  cases h : m.inspect k with
  | ok text =>
    have hrun : keywordText k m = .ok text m := by
      rw [hinspect, h]
      rfl
    exact (run_lift_bind hrun).trans rfl
  | error d =>
    have hrun : keywordText k m = .error d m := by
      rw [hinspect, h]
      rfl
    exact run_lift_bind_error hrun

end Attempt

section

variable {m m₁ : Machine} {seq : Sequence} {req opt post low n : Nat} {args : List Value} {kw k v : Value}
  {es after before : List (Value × Value)} {blk : Option Block} {fs : List Nat} {f : Nat → Value}

/-- The slots of the callee were laid out in part when the call is refused. -/
structure Halted (m : Machine) (low size : Nat) (m₁ : Machine) : Prop where
  lays : ∃ f, Lays m m₁ low size f
  pages : m.heap.pages.size ≤ m₁.heap.pages.size

theorem routeKeywords_refuses {p : Params} {size : Nat} (hc : low + size ≤ m.context.stack.capacity)
    (hslots : ∀ k ∈ p.keywords, k.slot.toNat < size) (hd : p.delegate = false)
    (hacc : ∀ e ∈ before, (p.slotFor? e.1).isSome = true) (hk : p.slotFor? k = none)
    (hkeys : ∀ e ∈ before, e.1.isRef = true → ∃ o, m.heap.read e.1.toRef = .ok o) (h : Lays m m₁ low size f) :
    (routeKeywords p ⟨low, size⟩ none (before ++ (k, v) :: after)).Reaches m₁ (Attempt.refuse k) n fun m₂ =>
      (∃ f, Lays m m₂ low size f) ∧ m₂.heap = m₁.heap := by
  have hrest : ∀ d ∈ (none : Option Value), Surplus m m₁ d {} := nofun
  obtain ⟨m₂, hrun, h₂, -, hh, -, -⟩ := routeKeywords_append (fun _ _ hr => hr) hc hslots ((k, v) :: after)
    (fun e he => .inl (hacc e he)) hkeys h.objects hrest h
  refine .inl ⟨m₂, hrun.trans ?_, ⟨_, h₂⟩, hh rfl⟩
  have hnone : (if k.isSymbol = true then p.keywordSlot? k.toSymbol else none) = none := Option.map_eq_none_iff.1 hk
  unfold routeKeywords
  rw [hnone, hd]
  dsimp only
  rw [Bool.not_false, if_pos rfl]
  rfl

theorem fillKeywords_refuses (hs : seq.Regular req opt post) (hc : low + seq.slotCount ≤ m.context.stack.capacity)
    (hkw : Keywords m kw (before ++ (k, v) :: after)) (hr : seq.params.kwRest = false) (hd : seq.params.delegate = false)
    (hacc : ∀ e ∈ before, (seq.params.slotFor? e.1).isSome = true) (hk : seq.params.slotFor? k = none)
    (h : Lays m m₁ low seq.slotCount f) :
    (fillKeywords seq ⟨low, seq.slotCount⟩ kw).Reaches m₁ (Attempt.refuse k) n fun m₂ =>
      (∃ f, Lays m m₂ low seq.slotCount f) ∧ m₂.heap = m₁.heap := by
  have hnone : seq.kwRestSlot = none := by rwa [← Option.isNone_iff_eq_none, ← Option.not_isSome, ← hs.kwRest, Bool.not_eq_true']
  rw [fillKeywords_of_none hnone, passKeywords]
  rcases hkw.hash with ⟨-, hes⟩ | ⟨href, d, hdict, hes⟩
  · simp at hes
  · rw [Value.isNil_of_isRef href]
    refine .step (asDict?_apply href (h.objects kw _ hdict)) ?_
    dsimp only
    rw [hes]
    refine routeKeywords_refuses hc (fun k hk => ?_) hd hacc hk (fun e he => hkw.keys e ?_) h
    · exact (hs.above _ (Sequence.mem_specials.2 (.inl (List.mem_map.2 ⟨k, hk, rfl⟩)))).2
    · exact List.mem_append_left _ he

/-- A call whose keywords go nowhere ends with the first of them. -/
theorem fillParams_refuses (hs : seq.Regular req opt post) (hm : Called m seq low args)
    (hkw : Keywords m kw (before ++ (k, v) :: after)) (hr : seq.params.kwRest = false) (hd : seq.params.delegate = false)
    (hacc : ∀ e ∈ before, (seq.params.slotFor? e.1).isSome = true) (hk : seq.params.slotFor? k = none) :
    (fillParams seq low args.length kw blk).Reaches m (Attempt.refuse k) (m.heap.pages.size + 1)
      (Halted m low seq.slotCount) := by
  refine (fillParams_enters (Nat.lt_succ_self _) hs hm).trans fun m₁ ⟨f, h⟩ => ?_
  have hnone : seq.delegateSlot = none := by
    rwa [← Option.isNone_iff_eq_none, ← Option.not_isSome, ← hs.delegate, Bool.not_eq_true']
  rw [fillSpecials, hnone]
  refine .step (u := pure ()) rfl ?_
  refine .after (forM_uninit h.lays hm.room _ fun k hk => ?_) ?_
  · exact (hs.above _ (Sequence.mem_specials.2 (.inl (List.mem_map.2 ⟨k, hk, rfl⟩)))).2
  rintro _ m₂ ⟨h₂, hh₂⟩
  have hrefuses := (fillKeywords_refuses (n := m.heap.pages.size + 1) hs hm.room hkw hr hd hacc hk h₂).andThen fun _ =>
    ((Locals.mk low seq.slotCount).setOptional seq.blockSlot (blockToProc blk) : Exec Unit)
  rw [Attempt.refuse_bind] at hrefuses
  refine hrefuses.trans fun m₃ ⟨h₃, hh₃⟩ => .refl ⟨h₃, ?_⟩
  rw [hh₃, hh₂]
  exact h.pages

/-! ## Where keywords come to lie -/

theorem Code.Sequence.Regular.separate (hs : seq.Regular req opt post)
    (hnames : (seq.params.keywords.map Keyword.name).Nodup) : seq.params.Separate :=
  ⟨hnames, (List.nodup_append.1 hs.apart).1⟩

/-- Each keyword's slot holds what the hash has for its name, and is marked as not given if there is nothing. The other
entries are those of a new hash. -/
structure Routed (seq : Sequence) (low : Nat) (es : List (Value × Value)) (m m₁ : Machine) : Prop where
  rest : m₁.withMemory m = m
  len : m₁.context.stack.len = low + seq.slotCount
  objects : m.KeepsObjects m₁
  keywords : ∀ k ∈ seq.params.keywords,
    m₁.slot (low + k.slot.toNat) = (es.lookup (.ofSymbol k.name)).getD .uninit
  surplus : ∀ s ∈ seq.kwRestSlot,
    IsNew m m₁ (m₁.slot (low + s.toNat)) (.dict (m.collected (seq.params.undeclared es)))

theorem fillParams_routes (hs : seq.Regular req opt post) (hnames : (seq.params.keywords.map Keyword.name).Nodup)
    (hm : Called m seq low args) (hkw : Keywords m kw es) (hes : m.Distinct es)
    (hb : seq.blockSlot.isSome = true → BlockBelow m fs low blk)
    (hacc : seq.params.kwRest = true ∨ ∀ e ∈ es, seq.params.Declares e.1) :
    Attempt.Ends (fillParams seq low args.length kw blk) m (m.heap.pages.size + 2 * fs.length + 5) fun _ m₁ =>
      Routed seq low es m m₁ := by
  have hfirst : (es.map Prod.fst).Nodup := by
    refine List.Nodup.of_map m.keyId ?_
    rw [List.map_map]
    exact hes.keys
  have hsurplus : m.stored {} (seq.params.surplus es) = m.collected (seq.params.undeclared es) := by
    rw [Params.surplus_eq hes.symbols]
    exact stored_empty (hes.keys.sublist (List.filter_sublist.map _))
  have hacc' : ∀ e ∈ es, (seq.params.slotFor? e.1).isSome = true ∨ seq.kwRestSlot.isSome = true ∨
      seq.params.delegate = true := fun e he =>
    hacc.elim (fun h => .inr (.inl (hs.kwRest ▸ h))) fun h => .inl ((Params.isSome_slotFor? (hes.symbols e he)).2 (h e he))
  refine (fillParams_enters (by omega) hs hm).ends fun m₁ ⟨f, h⟩ => ?_
  refine (fillSpecials_words (by have := h.grows; omega) hs hm.room hkw hb hacc' h.lays _).imp ?_
  rintro _ m₂ ⟨-, dv, sv, bv, hfilled⟩
  have hslot {s : Nat} (hmem : s ∈ seq.specials) := hfilled.slot s (hs.above s hmem).2
  refine ⟨hfilled.rest, hfilled.len, hfilled.objects, fun k hk => ?_, fun s hmem => ?_⟩
  · rw [hslot (Sequence.mem_specials.2 (.inl (List.mem_map.2 ⟨k, hk, rfl⟩))), hs.words_keyword hk]
    exact (hs.separate hnames).route_eq hk hes.symbols hfirst
  · rw [hslot (Sequence.mem_specials.2 (.inr (.inl ⟨s, hmem, rfl⟩))), hs.words_kwRest hmem, ← hsurplus]
    exact hfilled.kwRest (Option.isSome_of_mem hmem)

/-! ## Methods and blocks -/

/-- The arguments fit on the stack, and if there is but one and it is an array to be spread, so do its elements. -/
structure Spreadable (m : Machine) (seq : Sequence) (low : Nat) (args : List Value) (kw : Value) : Prop where
  room : low + args.length ≤ m.context.stack.capacity
  elements : ∀ v, args = [v] → seq.params.spreads = true → kw.isNil = true → v.isRef = true →
    ∃ o, m.heap.read v.toRef = .ok o ∧ ∀ elems, o = .array elems → low + elems.size ≤ m.context.stack.capacity

theorem isSimple_of_hasKeywords {p : Params} (h : p.hasKeywords = true) : p.isSimple = false := by
  rw [Params.hasKeywords, Bool.or_eq_true, Bool.not_eq_true'] at h
  rcases h with h | h <;> simp [Params.isSimple, h]

theorem foldKeywords_of_hasKeywords {p : Params} (h : p.hasKeywords = true) (argc : Int) (kw : Value) (m : Machine) :
    foldKeywords p argc kw m = .ok (argc, kw) m := by
  rw [foldKeywords, if_pos (by rw [h, Bool.or_true, Bool.true_or])]
  rfl

theorem bindMethod_fills (hs : seq.Regular req opt post) (hm : Called m seq low args)
    (hh : seq.params.hasKeywords = true) (hn : ¬ seq.params.Miscounts req opt post args.length) :
    (bindMethod seq low args.length kw blk).run m = (fillParams seq low args.length kw blk).run m := by
  have hcounts := hs.counts (by have := hm.small; have := hm.room; omega)
  have henough : req + post ≤ args.length := Nat.le_of_not_lt fun h => hn (.inl h)
  rw [bindMethod_eq, if_neg (by rw [isSimple_of_hasKeywords hh]; exact Bool.false_ne_true), layMethod]
  refine (Attempt.run_lift_bind (foldKeywords_of_hasKeywords hh _ kw m)).trans ?_
  dsimp only
  rw [hcounts.sum_least_opt, hcounts.least_eq]
  by_cases hopen : seq.params.rest ≠ .none ∨ seq.params.delegate = true
  · rw [if_pos hopen, if_neg (by omega)]
  · have hmost : args.length ≤ req + opt + post := by
      rw [not_or, not_not, Bool.not_eq_true] at hopen
      exact Nat.le_of_not_lt fun h => hn (.inr ⟨h, hopen⟩)
    rw [if_neg hopen, if_neg (by omega)]

/-- The elements of an array take its place. -/
theorem spread_lays (hm : Called m seq low [v]) {elems : Array Value} (hone : low + 1 ≤ m.context.stack.capacity)
    (hroom : low + elems.size ≤ m.context.stack.capacity) : ∃ m₁,
    (do resize low; extend elems.toList; return (elems.size : Int) : Exec Int) m = .ok (elems.toList.length : Int) m₁ ∧
      Called m₁ seq low elems.toList ∧ (Lays m m₁ low elems.toList.length fun i => elems.toList.getD i .nil) ∧
      m₁.heap = m.heap := by
  obtain ⟨m₁, hrun, h₁, hholds⟩ := (spread_cases ⟨hm.len, hone, hm.small⟩ elems).1 hroom
  have hheap : (m₁.withStack m.context.stack).heap = m.heap := by rw [hholds.rest]
  replace hheap : m₁.heap = m.heap := hheap
  have hslot (i : Nat) : m₁.slot i = _ := hholds.stack.slot i
  have hcapacity := hholds.stack.capacity
  rw [← Array.length_toList] at hrun h₁
  have hlays : Lays m m₁ low elems.toList.length fun i => elems.toList.getD i .nil := by
    refine ⟨?_, h₁.len, hcapacity, fun i hi => ?_, fun i hi => ?_, hheap ▸ hm.heap, fun _ _ hr => hheap ▸ hr⟩
    · show (m₁.withStack m.context.stack).withMemory m = m
      rw [hholds.rest]
      rfl
    · rw [hslot, overlay_of_lt hi, if_neg (by omega)]
    · rw [hslot, overlay_mem hi]
  refine ⟨m₁, hrun, ⟨hlays.inv, h₁.len, hlays.slot, ?_, ?_⟩, hlays, hheap⟩
  · rw [hcapacity]
    exact hm.room
  · rw [hcapacity]
    exact hm.small

/-- The elements of an array. -/
def Machine.elements? (m : Machine) (v : Value) : Option (List Value) :=
  if v.isRef then
    match m.heap.read v.toRef with
    | .ok (.array elems) => some elems.toList
    | _ => none
  else none

/-- The arguments that a block's parameters are filled from: those of the call, or the elements of a single array that is
spread. -/
def Code.Params.dealt (p : Params) (m : Machine) (args : List Value) (kw : Value) : List Value :=
  match args with
  | [v] => if p.spreads && kw.isNil then (m.elements? v).getD [v] else [v]
  | args => args

theorem dealt_of_not {p : Params} (h : ¬ (args.length = 1 ∧ p.spreads = true ∧ kw.isNil = true)) :
    p.dealt m args kw = args := by
  unfold Params.dealt
  split
  · refine if_neg fun hp => h ⟨rfl, ?_⟩
    rwa [Bool.and_eq_true] at hp
  · rfl

theorem dealt_one {p : Params} (hp : p.spreads = true) (hkw : kw.isNil = true) :
    p.dealt m [v] kw = (m.elements? v).getD [v] :=
  if_pos (by rw [hp, hkw]; rfl)

theorem asArray?_elements (hread : v.isRef = true → ∃ o, m.heap.read v.toRef = .ok o) : ∃ xs,
    asArray? v m = .ok xs m ∧ m.elements? v = xs.map Array.toList ∧
    ∀ a, xs = some a → v.isRef = true ∧ m.heap.read v.toRef = .ok (.array a) := by
  cases hr : v.isRef with
  | false =>
    refine ⟨none, ?_, by rw [elements?, hr]; rfl, fun a h => nomatch h⟩
    rw [asArray?, deref?, hr]
    rfl
  | true =>
    obtain ⟨o, ho⟩ := hread hr
    cases o with
    | array a =>
      refine ⟨some a, asArray?_apply hr ho, by rw [elements?, if_pos hr, ho]; rfl, fun b h => ?_⟩
      cases h
      exact ⟨rfl, ho⟩
    | _ =>
      refine ⟨none, ?_, by rw [elements?, if_pos hr, ho]; rfl, fun a h => nomatch h⟩
      rw [asArray?, bind_of_ok (deref?_of_read hr ho)]
      rfl

/-- What is laid over the arguments of the call are those that are dealt. -/
theorem spreadArray_deals (hm : Called m seq low args) (hspread : Spreadable m seq low args kw) : ∃ m₁,
    spreadArray seq.params low args.length kw m = .ok ((seq.params.dealt m args kw).length : Int) m₁ ∧
    Called m₁ seq low (seq.params.dealt m args kw) ∧
    (Lays m m₁ low (seq.params.dealt m args kw).length fun i => (seq.params.dealt m args kw).getD i .nil) ∧
    m₁.heap = m.heap := by
  rw [spreadArray_eq ⟨hm.len, hspread.room, hm.small⟩ seq.params kw]
  by_cases hone : args.length = 1 ∧ seq.params.spreads = true ∧ kw.isNil = true
  · obtain ⟨v, rfl⟩ := List.length_eq_one_iff.1 hone.1
    have hv : m.slot low = v := hm.slot 0 Nat.one_pos
    rw [if_pos hone, hv, dealt_one hone.2.1 hone.2.2]
    have hread (hr : v.isRef = true) : ∃ o, m.heap.read v.toRef = .ok o := by
      obtain ⟨o, ho, -⟩ := hspread.elements v rfl hone.2.1 hone.2.2 hr
      exact ⟨o, ho⟩
    obtain ⟨xs, hrun, he, hxs⟩ := asArray?_elements hread
    rw [bind_of_ok hrun, he]
    cases xs with
    | none => exact ⟨m, rfl, hm, hm.lays, rfl⟩
    | some a =>
      obtain ⟨hr, ha⟩ := hxs a rfl
      obtain ⟨o, ho, hroom⟩ := hspread.elements v rfl hone.2.1 hone.2.2 hr
      cases ho.symm.trans ha
      exact spread_lays hm hspread.room (hroom a rfl)
  · rw [if_neg hone, dealt_of_not hone]
    exact ⟨m, rfl, hm, hm.lays, rfl⟩

/-- The attempt fills the parameters of a callee, from arguments that lie where those of the call do. -/
def Fills (x : Attempt Unit) (seq : Sequence) (low : Nat) (kw : Value) (blk : Option Block) (m : Machine) : Prop :=
  ∃ (args : List Value) (m₁ : Machine), x.run m = (fillParams seq low args.length kw blk).run m₁ ∧ Called m₁ seq low args ∧
    (Lays m m₁ low args.length fun i => args.getD i .nil) ∧ m₁.heap = m.heap

/-- A block's parameters are filled from the arguments of the call, or from the elements of its only one. -/
theorem bindBlock_fills (hm : Called m seq low args) (hh : seq.params.hasKeywords = true)
    (hspread : Spreadable m seq low args kw) : Fills (bindBlock seq low args.length kw blk) seq low kw blk m := by
  obtain ⟨m₁, hrun, hcalled, hlays, hheap⟩ := spreadArray_deals hm hspread
  refine ⟨_, m₁, ?_, hcalled, hlays, hheap⟩
  rw [bindBlock_eq]
  refine (Attempt.run_lift_bind hrun).trans ?_
  rw [if_neg (by rw [isSimple_of_hasKeywords hh]; exact Bool.false_ne_true)]
  exact (Attempt.run_lift_bind (foldKeywords_of_hasKeywords hh _ kw m₁)).trans rfl

/-- The call is refused for a key: it does not succeed, and its failure is the argument error that shows the key. -/
structure Refused (x : Attempt Unit) (k : Value) (m : Machine) : Prop where
  fails : ∀ m₁, x.run m ≠ .ok (.ok ()) m₁
  shows : ∀ e m₁, x.run m = .ok (.error e) m₁ → m.KeepsObjects m₁ ∧
    ∃ text, m₁.inspect k = .ok text ∧ e = Failure.of (.unknownKeyword text)
  ends : ∀ text, m.inspect k = .ok text → Exec.Ends x.run m (m.heap.pages.size + 1) fun r m₁ =>
    r = .error (Failure.of (.unknownKeyword text)) ∧ m.KeepsObjects m₁

theorem Attempt.Reaches.refused {x : Attempt Unit} (h : x.Reaches m (refuse k) (m.heap.pages.size + 1) fun m₁ =>
    m₁.withMemory m = m ∧ m.KeepsObjects m₁ ∧ m.heap.pages.size ≤ m₁.heap.pages.size) : Refused x k m := by
  rcases h with ⟨m₁, hrun, hrest, hk, hp⟩ | ⟨m₁, hrun, hfull⟩
  · rw [refuse_run] at hrun
    refine ⟨fun m₂ h => ?_, fun e m₂ h => ?_, fun text htext => ?_⟩
    · rw [h] at hrun
      split at hrun <;> cases hrun
    · rw [h] at hrun
      split at hrun <;> cases hrun
      exact ⟨hk, _, ‹_›, rfl⟩
    · rw [hk.inspect hrest hp htext] at hrun
      exact .of_ok hrun ⟨rfl, hk⟩
  · exact ⟨fun m₂ h => (nomatch h.symm.trans hrun), fun e m₂ h => (nomatch h.symm.trans hrun), fun _ _ => .inr ⟨m₁, hrun, hfull⟩⟩

theorem Machine.Distinct.keep (h : m.Distinct es) (hk : m.KeepsObjects m₁)
    (hkeys : ∀ e ∈ es, e.1.isRef = true → ∃ o, m.heap.read e.1.toRef = .ok o) : m₁.Distinct es where
  symbols := h.symbols
  keys := by
    rw [List.map_congr_left fun e he => hk.keyId (hkeys e he)]
    exact h.keys

theorem Routed.from {m₂ : Machine} {size : Nat} (h : Routed seq low es m₁ m₂) (hl : Lays m m₁ low size f)
    (hkeys : ∀ e ∈ es, e.1.isRef = true → ∃ o, m.heap.read e.1.toRef = .ok o) : Routed seq low es m m₂ where
  rest := by
    show (m₂.withMemory m₁).withMemory m = m
    rw [h.rest, hl.rest]
  len := h.len
  objects := hl.objects.trans h.objects
  keywords := h.keywords
  surplus s hs := by
    have hd := h.surplus s hs
    have hsame : m₁.collected (seq.params.undeclared es) = m.collected (seq.params.undeclared es) := by
      refine congrArg (fun l => Dict.mk (List.toArray l)) (List.map_congr_left fun e he => ?_)
      rw [hl.objects.keyId (hkeys e (List.mem_of_mem_filter he))]
    exact ⟨hd.isRef, fun o ho => hd.fresh o (hl.objects _ o ho), hsame ▸ hd.read⟩

/-- Keywords find their places exactly if surplus ones are taken or each key is the name of a keyword. Then each lies in
the slot of its parameter and the others in a new hash, in their order. Otherwise the call is refused for the first key
that is no name of a keyword. The objects that were there before, with the hash of the caller, stay as they are. -/
theorem keywords_exact (hs : seq.Regular req opt post) (hnames : (seq.params.keywords.map Keyword.name).Nodup)
    (hh : seq.params.hasKeywords = true) (hd : seq.params.delegate = false) (hm : Called m seq low args)
    (hkw : Keywords m kw es) (hes : m.Distinct es) (hb : seq.blockSlot.isSome = true → BlockBelow m fs low blk)
    (asBlock : Bool)
    (hargs : if asBlock then Spreadable m seq low args kw else ¬ seq.params.Miscounts req opt post args.length) :
    (seq.params.kwRest = true ∨ (∀ e ∈ es, seq.params.Declares e.1) →
      Attempt.Ends ((if asBlock then bindBlock else bindMethod) seq low args.length kw blk) m
        (m.heap.pages.size + 2 * fs.length + 5) fun _ m₁ => Routed seq low es m m₁) ∧
    ∀ k v more, seq.params.kwRest = false → seq.params.undeclared es = (k, v) :: more →
      Refused ((if asBlock then bindBlock else bindMethod) seq low args.length kw blk) k m := by
  have hfills : Fills ((if asBlock then bindBlock else bindMethod) seq low args.length kw blk) seq low kw blk m := by
    cases asBlock with
    | false => exact ⟨args, m, bindMethod_fills hs hm hh hargs, hm, hm.lays, rfl⟩
    | true => exact bindBlock_fills hm hh hargs
  obtain ⟨args₁, m₁, hrun, hm₁, hl, hheap⟩ := hfills
  have hreaches (n : Nat) : ((if asBlock then bindBlock else bindMethod) seq low args.length kw blk).Reaches m
      (fillParams seq low args₁.length kw blk) n (· = m₁) := .inl ⟨m₁, hrun, rfl⟩
  have hkw₁ := hkw.keep hl.objects
  have hes₁ := hes.keep hl.objects hkw.keys
  constructor
  · intro hacc
    refine (hreaches _).ends fun _ he => he ▸ ?_
    have hroutes := fillParams_routes hs hnames hm₁ hkw₁ hes₁ (fun h => hl.blockBelow (hb h)) hacc
    rw [hheap] at hroutes
    exact hroutes.imp fun _ m₂ h => h.from hl hkw.keys
  · intro k v more hr hfirst
    obtain ⟨before, after, rfl, hbefore, hk, -⟩ := List.filter_eq_cons_iff.1 hfirst
    rw [Bool.not_eq_true', decide_eq_false_iff_not] at hk
    have hslot : seq.params.slotFor? k = none := by
      rw [← Option.not_isSome_iff_eq_none, Params.isSome_slotFor? (hes.symbols (k, v) (by simp))]
      exact hk
    have hbefore' : ∀ e ∈ before, (seq.params.slotFor? e.1).isSome = true := fun e he => by
      rw [Params.isSome_slotFor? (hes.symbols e (List.mem_append_left _ he))]
      simpa using hbefore e he
    have hrefuses : (fillParams seq low args₁.length kw blk).Reaches m₁ _ _ _ :=
      fillParams_refuses hs hm₁ hkw₁ hr hd hbefore' hslot
    rw [hheap] at hrefuses
    refine Attempt.Reaches.refused ((hreaches _).trans fun _ he => he ▸ ?_)
    refine hrefuses.trans fun m₂ h => .refl ?_
    obtain ⟨f, h₂⟩ := h.lays
    refine ⟨?_, hl.objects.trans h₂.objects, hheap ▸ h.pages⟩
    show (m₂.withMemory m₁).withMemory m = m
    rw [h₂.rest, hl.rest]

end

/-- A block with one required parameter and a keyword. -/
def oneKeyword : Sequence where
  name := ⟨1⟩
  kind := .block
  params := { req := 1, keywords := [⟨⟨2⟩, 1⟩] }
  slots := 2

/-- With a name that is declared and one that is not, `:method_missing`, a method that takes surplus keywords is called, and
a block that does not is refused. -/
theorem keywords_oneDeclared : ∃ (m : Machine) (kw : Value), Called m everyKind 21 [.true] ∧
    Keywords m kw [(.ofSymbol ⟨2⟩, .true), (.ofSymbol ⟨9⟩, .false)] ∧
    (∃ u m₁, (bindMethod everyKind 21 1 kw none).run m = .ok (.ok u) m₁ ∧ m₁.slot 24 = .true ∧
      IsNew m m₁ (m₁.slot 25) (.dict (m.collected [(.ofSymbol ⟨9⟩, .false)]))) ∧
    ∃ m₁, (bindBlock oneKeyword 21 1 kw none).run m =
      .ok (.error (Failure.of (.unknownKeyword ":method_missing"))) m₁ := by
  let es : List (Value × Value) := [(.ofSymbol ⟨2⟩, .true), (.ofSymbol ⟨9⟩, .false)]
  let m₀ := twoFrames.pushed .true
  have hbare (seq : Sequence) (hroom : 21 + seq.slotCount ≤ twoFrames.context.stack.capacity) : Called twoFrames seq 21 [] :=
    ⟨Heap.inv_new 0 false, rfl, nofun, hroom, by decide⟩
  rcases alloc_apply (m := m₀) (Heap.inv_new 0 false) (.dict (m₀.collected es)) with
    ⟨kw, hp, -, href, hinv, hread, -, -, -, hgrows⟩ | ⟨hfull, -⟩
  swap
  · exact absurd hfull (by decide)
  let m := m₀.withHeap hp
  have hcalled (seq : Sequence) (hroom : 21 + seq.slotCount ≤ twoFrames.context.stack.capacity) :
      Called m seq 21 [.true] :=
    ⟨hinv, rfl, (pushed_lays (hbare seq hroom) .true).slot, hroom, (hbare seq hroom).small⟩
  have hkw : Keywords m kw es := by
    refine ⟨.inr ⟨href, _, hread, m₀.toList_collected es⟩, ?_⟩
    simp [es, Value.isRef_ofSymbol]
  have hes : m.Distinct es := by
    have hword (i : Ident) : m.keyId (.ofSymbol i) = .word (.ofSymbol i) := if_neg (by simp [Value.isRef_ofSymbol])
    refine ⟨by simp [es, Value.toSymbol_ofSymbol], ?_⟩
    rw [show es.map (fun e => m.keyId e.1) = [.word (.ofSymbol ⟨2⟩), .word (.ofSymbol ⟨9⟩)] by simp [es, hword]]
    decide
  have hmethod : everyKind.Regular 1 1 0 := ⟨rfl, rfl, rfl, by decide, by decide, by decide, rfl, rfl, rfl⟩
  have hblock : oneKeyword.Regular 1 0 0 := ⟨rfl, rfl, rfl, by decide, by decide, by decide, rfl, rfl, rfl⟩
  have hno (seq : Sequence) : seq.blockSlot.isSome = true → BlockBelow m [] 21 none := fun _ => nofun
  have htakes := (keywords_exact hmethod (by decide) rfl rfl (hcalled everyKind (by decide)) hkw hes (hno _) false
    (by rintro (h | ⟨-, h, -⟩) <;> revert h <;> decide)).1 (.inl rfl)
  have hroom : 21 + 1 ≤ twoFrames.context.stack.capacity := by decide
  have hspread : Spreadable m oneKeyword 21 [.true] kw := ⟨hroom, fun v _ hs => nomatch hs⟩
  have hrefuses := (keywords_exact hblock (by decide) rfl rfl (hcalled oneKeyword (by decide)) hkw hes (hno _) true
    hspread).2 (.ofSymbol ⟨9⟩) .false [] rfl (by decide)
  -- one page for the keywords, and those that binding takes
  have hpages : m.heap.pages.size ≤ 1 := hgrows
  have hmax : 6 ≤ Heap.maxPages := by decide
  obtain ⟨u, m₁, hrun, hrouted⟩ := htakes.exists_ok (by rw [List.length_nil]; omega)
  obtain ⟨r, m₂, hrun', rfl, -⟩ := (hrefuses.ends ":method_missing" rfl).exists_ok (by omega)
  refine ⟨m, kw, hcalled _ (by decide), hkw, ⟨u, m₁, hrun, ?_, hrouted.surplus 4 rfl⟩, m₂, hrun'⟩
  exact (hrouted.keywords _ List.mem_cons_self).trans (by decide)

end RubyMachine
