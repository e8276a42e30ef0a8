import RubyMachine.Proofs.Scope.Bindings
import RubyMachine.Proofs.Scope.Environments

/-! Names of locals: from a scope a name finds the innermost slot that has it, and the names that find one are those that
are listed, but for the empty name, which slots without a name have (`locals_exact`). -/

namespace RubyMachine

open Exec Code

/-- The innermost slot of a name in a chain, with its scope. -/
def slotIn? (ps : List (Value × Sequence)) (x : Ident) : Option (Value × Nat) :=
  ps.findSome? fun p => (p.2.slotOf? x).map fun i => (p.1, i)

theorem Code.Sequence.slotOf?_eq_none {seq : Sequence} {x : Ident} : seq.slotOf? x = none ↔ x ∉ seq.locals := by
  rw [Sequence.slotOf?, Array.findIdx?_eq_none_iff]
  constructor
  · intro h hx
    exact absurd (h x hx) (by rw [beq_self_eq_true]; decide)
  · intro h y hy
    rw [beq_eq_false_iff_ne]
    exact fun he => h (he ▸ hy)

theorem Code.Sequence.slotOf?_lt {seq : Sequence} {x : Ident} {i : Nat} (h : seq.slotOf? x = some i) :
    i < seq.slotCount := by
  obtain ⟨hlt, -⟩ := Array.findIdx?_eq_some_iff_getElem.1 h
  exact hlt.trans_le (Nat.le_max_right _ _)

theorem slotIn?_eq_none {ps : List (Value × Sequence)} {x : Ident} : slotIn? ps x = none ↔ ∀ p ∈ ps, x ∉ p.2.locals := by
  simp only [slotIn?, List.findSome?_eq_none_iff, Option.map_eq_none_iff, Sequence.slotOf?_eq_none]

theorem slotIn?_eq_some {ps : List (Value × Sequence)} {x : Ident} {w : Value} {i : Nat} :
    slotIn? ps x = some (w, i) ↔ ∃ inner seq outer, ps = inner ++ (w, seq) :: outer ∧
      (∀ p ∈ inner, x ∉ p.2.locals) ∧ seq.slotOf? x = some i := by
  simp only [slotIn?, List.findSome?_eq_some_iff, Option.map_eq_none_iff, Sequence.slotOf?_eq_none,
    Option.map_eq_some_iff, Prod.mk.injEq]
  constructor
  · rintro ⟨inner, ⟨w', seq⟩, outer, rfl, ⟨k, hk, rfl, rfl⟩, hinner⟩
    exact ⟨inner, seq, outer, rfl, hinner, hk⟩
  · rintro ⟨inner, seq, outer, rfl, hinner, hk⟩
    exact ⟨inner, (w, seq), outer, rfl, ⟨i, hk, rfl, rfl⟩, hinner⟩

theorem exists_of_slotIn? {ps : List (Value × Sequence)} {x : Ident} {w : Value} {i : Nat}
    (h : slotIn? ps x = some (w, i)) : ∃ seq, (w, seq) ∈ ps ∧ i < seq.slotCount := by
  obtain ⟨inner, seq, outer, rfl, -, hslot⟩ := slotIn?_eq_some.1 h
  exact ⟨seq, List.mem_append_right inner List.mem_cons_self, Sequence.slotOf?_lt hslot⟩

namespace Machine

variable {m m' : Machine} {u v w x top name : Value} {s : Scope} {fn : FnId} {seq : Sequence} {i j n : Nat}
  {ps qs : List (Value × Sequence)} {cs : List Value}

/-! ## Chains with their code -/

/-- The scopes from one outwards. Each is complete and bound to the code that is given with it. -/
inductive Nested (m : Machine) : Value → List (Value × Sequence) → Prop
  | method {v : Value} {s : Scope} {fn : FnId} {seq : Sequence} : m.scope? v = some s → s.Bound v fn seq.slotCount →
      Exec.sequence fn m = .ok seq m → (s.word 4).isNil = true → Nested m v [(v, seq)]
  | block {v : Value} {s : Scope} {fn : FnId} {seq : Sequence} {ps : List (Value × Sequence)} : m.scope? v = some s →
      s.Bound v fn seq.slotCount → Exec.sequence fn m = .ok seq m → Nested m (s.word 4) ps →
      Nested m v ((v, seq) :: ps)

/-- A complete chain of scopes that are bound to their code. -/
theorem Enclosed.nested (h : m.Enclosed v top) (hcs : ∀ u ∈ cs, m.Whole u)
    (hout : ∀ u ∈ cs, ∀ s, m.scope? u = some s → (s.word 4).isNil = false → s.word 4 ∈ cs) (hv : v ∈ cs) :
    ∃ ps, m.Nested v ps := by
  induction h with
  | method hs _ ho _ =>
    obtain ⟨-, s', fn, seq, hs', hb, hseq⟩ := hcs _ hv
    cases hs.symm.trans hs'
    exact ⟨_, .method hs hb hseq ho⟩
  | block hs _ ho _ ih =>
    obtain ⟨-, s', fn, seq, hs', hb, hseq⟩ := hcs _ hv
    cases hs.symm.trans hs'
    obtain ⟨ps, hps⟩ := ih (hout _ hv _ hs (Value.isNil_of_isRef ho.isRef))
    exact ⟨_, .block hs hb hseq hps⟩

/-- A scope is shown by its class. -/
def scopeText (m : Machine) : String := "#<" ++ m.classes.nameText m.idents ClassTable.binding ++ ">"

theorem inspect_scope (hs : m.scope? v = some s) : Exec.inspect v m = .ok m.scopeText m := by
  obtain ⟨hv, hread⟩ := scope?_eq_some.1 hs
  have hsymbol : v.isSymbol = false := Value.hasTag_of_ne hv (by decide)
  have hfloat : v.isFloat = false := Value.isFloat_of_hasTag hv (by decide)
  have hlift : Exec.inspect v m = (liftM (m.inspect v) : Exec String) m := rfl
  have htext : m.inspect v = .ok m.scopeText := by
    rw [Machine.inspect, inspectTo, hsymbol, hfloat, hv, hread]
    rfl
  rw [hlift, htext]
  rfl

namespace Nested

theorem isRef (h : m.Nested v ps) : v.isRef = true := by
  cases h with
  | method hs _ _ _ | block hs _ _ _ => exact isRef_of_scope? hs

theorem scope (h : m.Nested v ps) : ∃ s fn n, m.scope? v = some s ∧ s.Bound v fn n := by
  cases h with
  | method hs hb _ _ | block hs hb _ _ => exact ⟨_, _, _, hs, hb⟩

/-- From every scope of a chain there is a chain, which is no longer. -/
theorem of_mem (h : m.Nested v ps) {p : Value × Sequence} (hp : p ∈ ps) :
    ∃ qs, m.Nested p.1 (p :: qs) ∧ qs.length < ps.length := by
  induction h with
  | method hs hb hseq ho =>
    obtain rfl := List.mem_singleton.1 hp
    exact ⟨[], .method hs hb hseq ho, Nat.zero_lt_one⟩
  | @block v s fn seq ps hs hb hseq hps ih =>
    rcases List.mem_cons.1 hp with rfl | hp
    · exact ⟨ps, .block hs hb hseq hps, Nat.lt_succ_self _⟩
    · obtain ⟨qs, hqs, hlt⟩ := ih hp
      exact ⟨qs, hqs, hlt.trans (Nat.lt_succ_self _)⟩

theorem bound (h : m.Nested v ps) {p : Value × Sequence} (hp : p ∈ ps) :
    ∃ s fn, m.scope? p.1 = some s ∧ s.Bound p.1 fn p.2.slotCount := by
  obtain ⟨w, seq⟩ := p
  obtain ⟨qs, hqs, -⟩ := h.of_mem hp
  cases hqs with
  | method hs hb _ _ | block hs hb _ _ => exact ⟨_, _, hs, hb⟩

theorem fn_apply (hs : m.scope? v = some s) (hb : s.Bound v fn n) : (Env.heap v).fn m = .ok fn m := by
  refine fn_of_word ?_
  rw [← hb.code]
  exact scope_wordAt hs hb.shaped rfl (by decide)

theorem outer_apply (hs : m.scope? v = some s) (hb : s.Bound v fn n) : (Env.heap v).outer m = .ok (s.word 4) m :=
  scope_wordAt hs hb.shaped rfl (by decide)

/-- From one scope there is but one chain. -/
theorem unique (h : m.Nested v ps) (h' : m.Nested v qs) : ps = qs := by
  induction h generalizing qs with
  | method hs hb hseq ho =>
    cases h' with
    | method hs' hb' hseq' _ =>
      cases hs.symm.trans hs'
      cases (fn_apply hs hb).symm.trans (fn_apply hs hb')
      cases hseq.symm.trans hseq'
      rfl
    | block hs' _ _ h' =>
      cases hs.symm.trans hs'
      rw [Value.isNil_of_isRef h'.isRef] at ho
      cases ho
  | block hs hb hseq hps ih =>
    cases h' with
    | method hs' _ _ ho =>
      cases hs.symm.trans hs'
      rw [Value.isNil_of_isRef hps.isRef] at ho
      cases ho
    | block hs' hb' hseq' h' =>
      cases hs.symm.trans hs'
      cases (fn_apply hs hb).symm.trans (fn_apply hs hb')
      cases hseq.symm.trans hseq'
      rw [ih h']

/-- Scopes in one place are one scope. -/
theorem eq_of_place (h : m.Nested v ps) (h' : m.Nested w qs) (hp : m.placeOf (.heap v) = m.placeOf (.heap w)) :
    v = w := by
  obtain ⟨s, fn, _, hs, hb⟩ := h.scope
  obtain ⟨s', fn', _, hs', hb'⟩ := h'.scope
  have hword := wordAt_congr (fn_apply hs hb) (fn_apply hs' hb') hp Frame.envWord
  have henv : (Env.heap v).wordAt Frame.envWord m = .ok (s.word 1) m := scope_wordAt hs hb.shaped rfl (by decide)
  have henv' : (Env.heap w).wordAt Frame.envWord m = .ok (s'.word 1) m := scope_wordAt hs' hb'.shaped rfl (by decide)
  rw [henv, henv', hb.shaped.env, hb'.shaped.env] at hword
  cases hword
  rfl

/-- The scopes of a chain are different ones. -/
theorem nodup (h : m.Nested v ps) : (ps.map fun p => m.placeOf (.heap p.1)).Nodup := by
  induction h with
  | method => exact List.nodup_singleton _
  | @block v s fn seq ps hs hb hseq hps ih =>
    rw [List.map_cons, List.nodup_cons]
    refine ⟨fun hin => ?_, ih⟩
    obtain ⟨p, hp, hplace⟩ := List.mem_map.1 hin
    obtain ⟨qs, hqs, hlt⟩ := hps.of_mem hp
    have hhere : m.Nested v ((v, seq) :: ps) := .block hs hb hseq hps
    obtain rfl : p.1 = v := hqs.eq_of_place hhere hplace
    -- the chain from here would be shorter than itself
    have hlen := congrArg List.length (hqs.unique hhere)
    rw [List.length_cons, List.length_cons] at hlen
    omega

/-- A chain is no longer than there are cells. -/
theorem length_le (h : m.Nested v ps) : ps.length ≤ m.heap.pages.size * Heap.pageCells := by
  have hsub : (ps.map fun p => m.placeOf (.heap p.1)) ⊆
      List.range' m.context.stack.capacity (m.heap.pages.size * Heap.pageCells) := fun k hk => by
    obtain ⟨p, hp, rfl⟩ := List.mem_map.1 hk
    obtain ⟨s, fn, hs, hb⟩ := h.bound hp
    have hlt := placeOf_lt (fn_apply hs hb)
    rw [List.mem_range'_1]
    rw [placeOf_heap] at hlt ⊢
    exact ⟨Nat.le_add_right _ _, hlt⟩
  have hle := (List.subperm_of_subset h.nodup hsub).length_le
  rwa [List.length_map, List.length_range'] at hle

/-! ## Searches -/

theorem searchScopes_apply {α : Type} {f : Value → Sequence → Exec (Option α)} {g : Value × Sequence → Option α}
    (h : m.Nested v ps) (hf : ∀ p, f p.1 p.2 m = .ok (g p) m) {fuel : Nat} (hfuel : ps.length ≤ fuel) :
    searchScopes f fuel v m = .ok (ps.findSome? g) m := by
  induction h generalizing fuel with
  | @method v s fn seq hs hb hseq ho =>
    obtain ⟨fuel, rfl⟩ : ∃ k, fuel = k + 1 := Nat.exists_eq_add_one.2 hfuel
    rw [searchScopes, bind_of_ok (asScope_apply hs), bind_of_ok (fn_apply hs hb), bind_of_ok hseq,
      bind_of_ok (hf (v, seq)), List.findSome?_cons, List.findSome?_nil]
    cases g (v, seq) with
    | some a => rfl
    | none => exact (bind_of_ok (outer_apply hs hb)).trans (by rw [if_pos ho]; rfl)
  | @block v s fn seq ps hs hb hseq hps ih =>
    obtain ⟨fuel, rfl⟩ : ∃ k, fuel = k + 1 := Nat.exists_eq_add_one.2 ((Nat.zero_lt_succ _).trans_le hfuel)
    rw [searchScopes, bind_of_ok (asScope_apply hs), bind_of_ok (fn_apply hs hb), bind_of_ok hseq,
      bind_of_ok (hf (v, seq)), List.findSome?_cons]
    cases g (v, seq) with
    | some a => rfl
    | none =>
      refine (bind_of_ok (outer_apply hs hb)).trans ?_
      rw [if_neg (by rw [Value.isNil_of_isRef hps.isRef]; decide)]
      exact ih (Nat.le_of_succ_le_succ hfuel)

theorem scopeChain_apply (h : m.Nested v ps) {fuel : Nat} (hfuel : ps.length ≤ fuel) :
    scopeChain fuel v m = .ok ps m := by
  induction h generalizing fuel with
  | @method v s fn seq hs hb hseq ho =>
    obtain ⟨fuel, rfl⟩ : ∃ k, fuel = k + 1 := Nat.exists_eq_add_one.2 hfuel
    rw [scopeChain, bind_of_ok (asScope_apply hs), bind_of_ok (fn_apply hs hb), bind_of_ok hseq,
      bind_of_ok (outer_apply hs hb), if_pos ho]
    rfl
  | @block v s fn seq ps hs hb hseq hps ih =>
    obtain ⟨fuel, rfl⟩ : ∃ k, fuel = k + 1 := Nat.exists_eq_add_one.2 ((Nat.zero_lt_succ _).trans_le hfuel)
    rw [scopeChain, bind_of_ok (asScope_apply hs), bind_of_ok (fn_apply hs hb), bind_of_ok hseq,
      bind_of_ok (outer_apply hs hb), if_neg (by rw [Value.isNil_of_isRef hps.isRef]; decide),
      bind_of_ok (ih (Nat.le_of_succ_le_succ hfuel))]
    rfl

theorem le_fuel (h : m.Nested v ps) : ps.length ≤ m.heap.pages.size * Heap.pageCells + 1 :=
  h.length_le.trans (Nat.le_succ _)

/-- The names that are listed are those of the slots that have one. -/
theorem localNames_apply (h : m.Nested v ps) : ∃ names, localNames v m = .ok names m ∧
    ∀ x, x ∈ names ↔ x ≠ .none ∧ ∃ p ∈ ps, x ∈ p.2.locals := by
  have hfuel : scopeFuel m = .ok (m.heap.pages.size * Heap.pageCells + 1) m := rfl
  refine ⟨_, (bind_of_ok hfuel).trans (bind_of_ok (h.scopeChain_apply h.le_fuel)), fun x => ?_⟩
  rw [List.mem_mergeSort, distinct, List.mem_eraseDups, List.mem_flatMap]
  constructor
  · rintro ⟨p, hp, hx⟩
    rw [List.mem_filter, Array.mem_toList_iff, bne_iff_ne] at hx
    exact ⟨hx.2, p, hp, hx.1⟩
  · rintro ⟨hne, p, hp, hx⟩
    refine ⟨p, hp, ?_⟩
    rw [List.mem_filter, Array.mem_toList_iff, bne_iff_ne]
    exact ⟨hx, hne⟩

/-- A name finds the innermost slot that has it, also when it is the empty name. -/
theorem findLocal_apply (h : m.Nested v ps) (hn : name.isSymbol = true) :
    (findLocal v name).run m = .ok (match slotIn? ps name.toSymbol with
      | some r => .ok r
      | none => .error (.of (.undefinedLocal (m.idents.name name.toSymbol) m.scopeText))) m := by
  have hfuel : scopeFuel m = .ok (m.heap.pages.size * Heap.pageCells + 1) m := rfl
  have hsearch := h.searchScopes_apply (g := fun p => (p.2.slotOf? name.toSymbol).map fun i => (p.1, i))
    (f := fun s seq => return (seq.slotOf? name.toSymbol).map fun i => (s, i)) (fun _ => rfl) h.le_fuel
  have hrun : (findLocal v name).run m = (match slotIn? ps name.toSymbol with
      | some r => return r
      | none => do
        Attempt.fail (.undefinedLocal (← identName name.toSymbol) (← Exec.inspect v)) : Attempt (Value × Nat)).run m := by
    unfold findLocal
    rw [hn]
    exact (Attempt.run_lift_bind hfuel).trans (Attempt.run_lift_bind hsearch)
  rw [hrun]
  cases slotIn? ps name.toSymbol with
  | some r => rfl
  | none =>
    obtain ⟨s, _, _, hs, -⟩ := h.scope
    have hname : identName name.toSymbol m = .ok (m.idents.name name.toSymbol) m := rfl
    exact (Attempt.run_lift_bind hname).trans (Attempt.run_lift_bind (inspect_scope hs))

theorem hasLocal_apply (h : m.Nested v ps) (hn : name.isSymbol = true) :
    hasLocal v name m = .ok (slotIn? ps name.toSymbol).isSome m := by
  refine (bind_of_ok (h.findLocal_apply hn)).trans ?_
  cases slotIn? ps name.toSymbol <;> rfl

/-! ## Writes -/

/-- Setting a local slot of one scope keeps the chain. -/
theorem put (h : m.Nested u ps) (ht : m.Touches m' v) (hs : m.scope? v = some s) (hb : s.Bound v fn n) (hi : i < n)
    (hs' : m'.scope? v = some (s.put (i + 1) x)) : m'.Nested u ps := by
  obtain ⟨hb', -, hword, -⟩ := hb.put (x := x) hi
  have hhere {w : Value} {t : Scope} {fn' : FnId} {k : Nat} (htw : m.scope? w = some t) (hbw : t.Bound w fn' k) :
      ∃ t', m'.scope? w = some t' ∧ t'.Bound w fn' k ∧ t'.word 4 = t.word 4 := by
    by_cases he : w.toRef = v.toRef
    · obtain rfl := eq_of_toRef hs hb.shaped htw hbw.shaped he
      cases hs.symm.trans htw
      exact ⟨_, hs', ⟨hb'.shaped, hb'.count.trans (hb.count.symm.trans hbw.count), (hword 6 (by decide)).trans hbw.code⟩,
        hword 4 (by decide)⟩
    · exact ⟨t, ht.scope? he htw, hbw, rfl⟩
  induction h with
  | method hs hb hseq ho =>
    obtain ⟨t, hst, hbt, h4⟩ := hhere hs hb
    exact .method hst hbt (ht.sequence hseq) (h4 ▸ ho)
  | block hs hb hseq _ ih =>
    obtain ⟨t, hst, hbt, h4⟩ := hhere hs hb
    exact .block hst hbt (ht.sequence hseq) (h4 ▸ ih)

/-- Setting a local slot changes this slot of this scope and no other one. -/
theorem setLocalAt_apply (hi : m.heap.Inv) (h : m.Nested v ps) {p : Value × Sequence} (hp : p ∈ ps)
    (hlt : i < p.2.slotCount) (x : Value) : ∃ m', (Env.heap p.1).setLocalAt i x m = .ok () m' ∧ m'.heap.Inv ∧
      m'.Nested v ps ∧ ∀ q ∈ ps, ∀ j < q.2.slotCount,
        m'.localOf (.heap q.1) j = if q.1 = p.1 ∧ j = i then x else m.localOf (.heap q.1) j := by
  obtain ⟨s, fn, hs, hb⟩ := h.bound hp
  obtain ⟨m', hrun, ht, hs'⟩ := setLocalAt_bound hi hs hb hlt x
  refine ⟨m', hrun, ht.inv, h.put ht hs hb hlt hs', fun q hq j hj => ?_⟩
  obtain ⟨t, fn', htq, hbq⟩ := h.bound hq
  rw [localOf_heap htq]
  by_cases he : q.1 = p.1
  · rw [he] at htq hbq ⊢
    cases hs.symm.trans htq
    obtain ⟨-, -, -, hslot⟩ := hb.put (x := x) hlt
    rw [localOf_heap hs', hslot j (by rw [← hb.count, hbq.count]; exact hj)]
    simp only [true_and]
  · rw [if_neg fun h => he h.1]
    refine localOf_heap (ht.scope? (fun hr => he ?_) htq) j
    exact eq_of_toRef hs hb.shaped htq hbq.shaped hr

theorem localAt_apply (h : m.Nested v ps) {p : Value × Sequence} (hp : p ∈ ps) (hlt : i < p.2.slotCount) :
    (Env.heap p.1).localAt i m = .ok (m.localOf (.heap p.1) i) m := by
  obtain ⟨s, fn, hs, hb⟩ := h.bound hp
  rw [localOf_heap hs]
  exact localAt_scope hs hb.shaped (hb.count.symm ▸ hlt)

/-! ## What code reads and writes by name -/

theorem localGet_apply (h : m.Nested v ps) (hn : name.isSymbol = true)
    (hr : slotIn? ps name.toSymbol = some (w, i)) : (Builtin.runClosure .localGet v [name]).run m =
      .ok (.ok (.value (Builtin.readable (m.localOf (.heap w) i)))) m := by
  obtain ⟨seq, hw, hlt⟩ := exists_of_slotIn? hr
  have hfind := h.findLocal_apply hn
  rw [hr] at hfind
  have hget := h.localAt_apply hw hlt
  refine (Attempt.run_bind_ok hfind).trans ?_
  refine (Attempt.run_lift_bind hget).trans ?_
  rfl

/-- What is set by name is read by it, and nothing else is changed. -/
theorem localSet_apply (hi : m.heap.Inv) (h : m.Nested v ps) (hn : name.isSymbol = true)
    (hr : slotIn? ps name.toSymbol = some (w, i)) (x : Value) : ∃ m',
      (Builtin.runClosure .localSet v [name, x]).run m = .ok (.ok (.value x)) m' ∧ m'.heap.Inv ∧ m'.Nested v ps ∧
      (Builtin.runClosure .localGet v [name]).run m' = .ok (.ok (.value (Builtin.readable x))) m' ∧
      ∀ p ∈ ps, ∀ j < p.2.slotCount, ¬ (p.1 = w ∧ j = i) → m'.localOf (.heap p.1) j = m.localOf (.heap p.1) j := by
  obtain ⟨seq, hw, hlt⟩ := exists_of_slotIn? hr
  obtain ⟨m', hset, hinv, h', hlocals⟩ := setLocalAt_apply hi h hw hlt x
  have hfind := h.findLocal_apply hn
  rw [hr] at hfind
  refine ⟨m', (Attempt.run_bind_ok hfind).trans (Attempt.run_lift_bind hset), hinv, h', ?_, fun p hp j hj hne => ?_⟩
  · rw [h'.localGet_apply hn hr, hlocals (w, seq) hw i hlt, if_pos ⟨rfl, rfl⟩]
  · rw [hlocals p hp j hj, if_neg hne]

/-- The locals that a symbol names are those that are listed. A symbol finds the innermost of them: it reads it, and what
is set through it is read through it and changes no other local of the chain. A symbol that is not listed finds nothing,
and nothing is changed. The empty name alone is never listed, and finds the first slot without a name. -/
theorem locals_exact (hi : m.heap.Inv) (h : m.Nested v ps) (hn : name.isSymbol = true) (hne : name.toSymbol ≠ .none) :
    ∃ names, localNames v m = .ok names m ∧
      (Builtin.runClosure .localDefined v [name]).run m =
        .ok (.ok (.value (.ofBool (decide (name.toSymbol ∈ names))))) m ∧
      (name.toSymbol ∈ names → ∃ inner w seq outer i, ps = inner ++ (w, seq) :: outer ∧
        (∀ p ∈ inner, name.toSymbol ∉ p.2.locals) ∧ seq.slotOf? name.toSymbol = some i ∧
        (Builtin.runClosure .localGet v [name]).run m =
          .ok (.ok (.value (Builtin.readable (m.localOf (.heap w) i)))) m ∧
        ∀ x, ∃ m', (Builtin.runClosure .localSet v [name, x]).run m = .ok (.ok (.value x)) m' ∧ m'.Nested v ps ∧
          (Builtin.runClosure .localGet v [name]).run m' = .ok (.ok (.value (Builtin.readable x))) m' ∧
          ∀ p ∈ ps, ∀ j < p.2.slotCount, ¬ (p.1 = w ∧ j = i) →
            m'.localOf (.heap p.1) j = m.localOf (.heap p.1) j) ∧
      (name.toSymbol ∉ names → ∃ e, (Builtin.runClosure .localGet v [name]).run m = .ok (.error e) m ∧
        ∀ x, (Builtin.runClosure .localSet v [name, x]).run m = .ok (.error e) m) := by
  obtain ⟨names, hnames, hmem⟩ := h.localNames_apply
  have hlisted : name.toSymbol ∈ names ↔ slotIn? ps name.toSymbol ≠ none := by
    rw [hmem, and_iff_right hne, Ne, slotIn?_eq_none]
    push Not
    rfl
  have hdefined : (Builtin.runClosure .localDefined v [name]).run m =
      .ok (.ok (.value (.ofBool (slotIn? ps name.toSymbol).isSome))) m :=
    Attempt.run_lift_bind (h.hasLocal_apply hn)
  refine ⟨names, hnames, ?_, fun hin => ?_, fun hout => ?_⟩
  · rw [hdefined, show (slotIn? ps name.toSymbol).isSome = decide (name.toSymbol ∈ names) from
      Bool.eq_iff_iff.2 (by rw [decide_eq_true_iff, hlisted, Option.isSome_iff_ne_none])]
  · obtain ⟨⟨w, i⟩, hr⟩ := Option.ne_none_iff_exists'.1 (hlisted.1 hin)
    obtain ⟨inner, seq, outer, hps, hinner, hslot⟩ := slotIn?_eq_some.1 hr
    refine ⟨inner, w, seq, outer, i, hps, hinner, hslot, h.localGet_apply hn hr, fun x => ?_⟩
    obtain ⟨m', hset, -, hkept, hget, hlocals⟩ := localSet_apply hi h hn hr x
    exact ⟨m', hset, hkept, hget, hlocals⟩
  · have hfind := h.findLocal_apply hn
    rw [not_not.1 fun hr => hout (hlisted.2 hr)] at hfind
    exact ⟨_, Attempt.run_bind_failed hfind, fun x => Attempt.run_bind_failed hfind⟩

end Nested

end Machine

end RubyMachine
