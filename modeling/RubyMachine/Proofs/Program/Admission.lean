import RubyMachine.Proofs.Arguments.Binding
import RubyMachine.Proofs.Program.Registration

/-! What loading makes sure of in a sequence, whatever was stored: that the slots of surplus keywords, of the block and of
what is delegated are locals, and that handlers are within the code (`loadAll_admits`). The counts of the positional
parameters and the slots of the keywords are taken over as they are, so that it depends on them alone whether every
parameter has a slot (`bindable_iff`). -/

namespace RubyMachine

/-- Every parameter has its slot among the local slots. -/
structure Code.Sequence.Bindable (q : Code.Sequence) : Prop where
  counts : 0 ≤ q.params.req ∧ 0 ≤ q.params.opt ∧ 0 ≤ q.params.post
  fits : q.params.req + q.params.opt + q.params.restSlots + q.params.post ≤ q.slotCount
  specials : ∀ n ∈ q.specials, n < q.slotCount

namespace Program

/-- The local slots that are stored with a sequence. -/
def Sequence.slotCount (s : Sequence) : Nat := max s.slots.toNat (s.locals.getD []).length

/-- Positional parameters and keywords have slots among those that are stored. -/
structure Sequence.Bindable (s : Sequence) : Prop where
  counts : 0 ≤ s.params.req ∧ 0 ≤ s.params.opt ∧ 0 ≤ s.params.post
  fits : s.params.req + s.params.opt + (if s.params.rest = 1 then 1 else 0) + s.params.post ≤ s.slotCount
  keywords : ∀ k ∈ s.params.keywords.getD [], k.slot.toNat < s.slotCount

namespace Loading

/-- What a stored sequence is loaded as: some of its slots and its handlers were checked, and the numbers of its
parameters are those that were stored. -/
structure Admits (s : Sequence) (q : Code.Sequence) : Prop where
  loadable : q.Loadable
  req : q.params.req = s.params.req
  opt : q.params.opt = s.params.opt
  post : q.params.post = s.params.post
  rest : q.params.rest = .ofCode s.params.rest
  keywordSlots : q.keywordSlots = (s.params.keywords.getD []).map fun k => k.slot.toNat
  slotCount : q.slotCount = s.slotCount

variable {names : Array Ident} {count : Nat} {s : Sequence} {q : Code.Sequence} {m m' m₁ : Machine}

theorem forall₂_of_mapM_ok {α β ε : Type} {f : α → Except ε β} {l : List α} {bs : List β} (h : l.mapM f = .ok bs) :
    List.Forall₂ (fun a b => f a = .ok b) l bs := by
  induction l generalizing bs with
  | nil =>
    cases h
    exact .nil
  | cons a l ih =>
    rw [List.mapM_cons] at h
    obtain ⟨b, hb, h⟩ := of_ok_bind h
    obtain ⟨bs', hbs, h⟩ := of_ok_bind h
    cases h
    exact .cons hb (ih hbs)

theorem slot_checked {locals : List Ident} {n r : Option UInt32} (h : slot locals n = .ok r) :
    ∀ k, r = some k → k.toNat < locals.length := by
  intro k hk
  cases n with
  | none =>
    cases h
    cases hk
  | some n =>
    rw [slot] at h
    split at h
    · cases h
      cases hk
      assumption
    · cases h

theorem handler_checked {size : Nat} {x : Handler} {y : Code.Handler} (h : handler size x = .ok y) :
    0 ≤ y.start ∧ y.stop ≤ size ∧ 0 ≤ y.dest ∧ y.dest ≤ size := by
  rw [handler] at h
  split at h
  · cases h
  · cases h
    dsimp only
    omega

theorem keywordSlot_kept {k : Keyword} {l : Code.Keyword}
    (h : (return { name := ← identOf names k.name, slot := k.slot } : Except Flaw Code.Keyword) = .ok l) : l.slot = k.slot := by
  obtain ⟨name, -, h⟩ := of_ok_bind h
  cases h
  rfl

theorem admits_of_outline (h : outline names count s = .ok q) : Admits s q := by
  obtain ⟨name, -, h⟩ := of_ok_bind h
  obtain ⟨code, -, h⟩ := of_ok_bind h
  obtain ⟨keywords, hkeywords, h⟩ := of_ok_bind h
  obtain ⟨locals, hlocals, h⟩ := of_ok_bind h
  obtain ⟨kwRest, hkwRest, h⟩ := of_ok_bind h
  obtain ⟨block, hblock, h⟩ := of_ok_bind h
  obtain ⟨delegate, hdelegate, h⟩ := of_ok_bind h
  cases h
  refine ⟨⟨slot_checked hkwRest, slot_checked hblock, slot_checked hdelegate, nofun⟩, rfl, rfl, rfl, rfl, ?_, ?_⟩
  · have hslots : List.Forall₂ (fun k l => l = k)
        ((s.params.keywords.getD []).map fun k => k.slot.toNat) (keywords.map fun l => l.slot.toNat) := by
      rw [List.forall₂_map_left_iff, List.forall₂_map_right_iff]
      exact (forall₂_of_mapM_ok hkeywords).imp fun k l hl => congrArg UInt32.toNat (keywordSlot_kept hl)
    exact (List.forall₂_eq_eq_eq ▸ hslots.flip : keywords.map (fun l => l.slot.toNat) = _)
  · exact congrArg (max s.slots.toNat) (forall₂_of_mapM_ok hlocals).length_eq.symm

/-- Literals and handlers come last. -/
theorem admits_of_sequence (h : Gives (sequence names count s) m q m') : Admits s q := by
  obtain ⟨q₁, m₁, ho, h⟩ := h.of_bind
  obtain ⟨vs, m₂, -, h⟩ := h.of_bind
  obtain ⟨xs, m₃, hx, h⟩ := h.of_bind
  cases h
  have ha : Admits s q₁ := admits_of_outline (EStateM.Result.ok.inj ho).1
  have hxs := forall₂_of_mapM_ok (EStateM.Result.ok.inj hx).1
  have hl := ha.loadable
  refine ⟨⟨hl.kwRest, hl.block, hl.delegate, fun y hy => ?_⟩, ha.req, ha.opt, ha.post, ha.rest, ha.keywordSlots, ha.slotCount⟩
  obtain ⟨x, -, hxy⟩ := exists_of_forall₂ hxs.flip y hy
  exact handler_checked hxy

theorem ofCode_eq_named (n : UInt8) : Code.RestKind.ofCode n = .named ↔ n = 1 := by
  refine ⟨fun h => ?_, fun h => h ▸ rfl⟩
  have hcode := congrArg Code.RestKind.code h
  rwa [code_ofCode_rest] at hcode

/-- Whether every parameter has a slot is left to the counts and the keywords that were stored. -/
theorem Admits.bindable_iff (h : Admits s q) : q.Bindable ↔ s.Bindable := by
  have hrest : q.params.restSlots = if s.params.rest = 1 then 1 else 0 := by
    rw [Code.Params.restSlots, h.rest]
    exact if_congr (ofCode_eq_named _) rfl rfl
  have hlocals : q.locals.size ≤ q.slotCount := Nat.le_max_right ..
  constructor
  · intro hb
    refine ⟨?_, ?_, fun k hk => ?_⟩
    · rw [← h.req, ← h.opt, ← h.post]
      exact hb.counts
    · rw [← h.req, ← h.opt, ← h.post, ← hrest, ← h.slotCount]
      exact hb.fits
    · rw [← h.slotCount]
      exact hb.specials _ (Code.Sequence.mem_specials.2 (.inl (h.keywordSlots ▸ List.mem_map_of_mem hk)))
  · intro hb
    refine ⟨?_, ?_, fun n hn => ?_⟩
    · rw [h.req, h.opt, h.post]
      exact hb.counts
    · rw [h.req, h.opt, h.post, hrest, h.slotCount]
      exact hb.fits
    · rcases Code.Sequence.mem_specials.1 hn with hk | ⟨slot, hs, rfl⟩ | ⟨slot, hs, rfl⟩ | ⟨slot, hs, rfl⟩
      · rw [h.keywordSlots] at hk
        obtain ⟨k, hmem, rfl⟩ := List.mem_map.1 hk
        exact h.slotCount ▸ hb.keywords k hmem
      · exact (h.loadable.kwRest slot hs).trans_le hlocals
      · exact (h.loadable.delegate slot hs).trans_le hlocals
      · exact (h.loadable.block slot hs).trans_le hlocals

end Loading

/-! ## Programs -/

namespace Loading

theorem length_shifted (there : Nat) (p : Code.Piece) : (shifted there p).bytes.length = p.bytes.length := by
  cases p <;> rfl

theorem size_shiftFunctions (there : Nat) (code : Bytes) : (shiftFunctions there code).size = code.size := by
  have hlength (ps : List Code.Piece) : (Code.render (ps.map (shifted there))).length = (Code.render ps).length := by
    rw [Code.render, Code.render, List.length_flatMap, List.length_flatMap, List.map_map]
    exact congrArg List.sum (List.map_congr_left fun p _ => length_shifted there p)
  rw [shiftFunctions, List.size_toArray, hlength, Code.render_pieces, Array.length_toList]

/-- Where functions are put does not matter. -/
theorem Admits.shift (h : Admits s q) (there : Nat) : Admits s (shiftSequence there q) := by
  have hl := h.loadable
  refine ⟨⟨hl.kwRest, hl.block, hl.delegate, ?_⟩, h.req, h.opt, h.post, h.rest, h.keywordSlots, h.slotCount⟩
  show ∀ x ∈ q.handlers, _
  rw [shiftSequence, size_shiftFunctions]
  exact hl.handlers

/-- Sequences are added only if there can be their caches. -/
theorem canHoldSites_of_mapM {qs : List Code.Sequence} {fns : List FnId} (h : qs.mapM Exec.addSequence m = .ok fns m') :
    ∀ q ∈ qs, Function.canHoldSites q = true := by
  induction qs generalizing m m' fns with
  | nil => simp
  | cons q qs ih =>
    rw [List.mapM_cons] at h
    obtain ⟨fn, m₁, hq, h⟩ := exists_of_bind h
    obtain ⟨rest, m₂, hqs, -⟩ := exists_of_bind h
    rw [Exec.addSequence] at hq
    refine List.forall_mem_cons.2 ⟨?_, ih hqs⟩
    by_contra hno
    rw [Bool.eq_false_of_not_eq_true hno] at hq
    cases hq

end Loading

/-- Whatever a program is, each of the functions that it is loaded as has the slots that loading checks, and handlers
within its code. -/
theorem loadAll_admits {m m' : Machine} (hi : m.heap.Inv) {p : Program} {fns : List FnId} (h : p.loadAll m = .ok (.ok fns) m') :
    ∃ qs : List Code.Sequence, m'.functions.functions = m.functions.functions ++ (qs.map Function.ofSequence).toArray ∧
      List.Forall₂ Loading.Admits (p.sequences.getD []) qs := by
  by_cases hentry : p.entry = 0 ∨ p.entry.toNat > (p.sequences.getD []).length
  · unfold loadAll at h
    rw [if_pos hentry] at h
    cases h
  obtain ⟨names, t, hnames, -⟩ := Exec.mapM_intern_lookup? m (p.idents.getD [])
  have run := h
  unfold loadAll at run
  rw [if_neg hentry, bind_of_ok hnames] at run
  obtain ⟨r, m₂, hqs, run⟩ := exists_of_bind run
  have stocked := (Loading.draws_sequences names.toArray _ 1 (p.sequences.getD []) (m := { m with idents := t }) hi).stocked hqs
  have hthere : m₂.functions = m.functions := by rw [stocked.rest]
  cases r with
  | error e => cases run
  | ok qs =>
    dsimp only at run
    rw [bind_of_ok (get_apply m₂)] at run
    obtain ⟨fns', m₃, hadd, -⟩ := exists_of_bind run
    rw [loadAll_eq hentry hnames hqs (Loading.canHoldSites_of_mapM hadd)
      (Loading.linkable_of_kin (Loading.kin_of_sequences hqs)), hthere] at h
    cases h
    refine ⟨qs.map (Loading.shiftSequence m.functions.size), by rw [List.map_map]; rfl, ?_⟩
    rw [List.forall₂_map_right_iff]
    exact (Loading.forall₂_of_sequences Loading.admits_of_sequence hqs).imp fun s q hq => hq.shift _

end Program

end RubyMachine
