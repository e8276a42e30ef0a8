import RubyMachine.Proofs.Program.Numbering
import RubyMachine.Proofs.Value.Kinds

/-! A captured program stands for what it was captured from: each of its sequences for the code of a
function, the functions being those that the first one leads to. -/

namespace RubyMachine

namespace Machine

/-- Code refers to a function. -/
def Refers (q : Code.Sequence) (g : FnId) : Prop := Code.Piece.fn g ∈ Code.pieces q.code.toList

/-- The functions that a function leads to. -/
inductive Reaches (m : Machine) (entry : FnId) : FnId → Prop where
  | entry : Reaches m entry entry
  | refer {f g : FnId} {q : Code.Sequence} : Reaches m entry f → m.functions.sequence f = .ok q → Refers q g →
    Reaches m entry g

end Machine

namespace Program

namespace Capture

variable {α β : Type} {s t u : Numbering} {m : Machine} {P : FnId → Prop}

/-! ## Literals, kind by kind -/

section Kinds

variable {depth : Nat} {v : Value}

-- The equations of the function are made here once, and not by each of the lemmas below.
attribute [local simp] literal

theorem literal_nil : literal m (depth + 1) .nil = pure { kind := Literal.nilKind } := rfl

theorem literal_true : literal m (depth + 1) .true = pure { kind := Literal.trueKind } := rfl

theorem literal_false : literal m (depth + 1) .false = pure { kind := Literal.falseKind } := rfl

/-- The values that the first three cases are about have a tag of their own. -/
theorem ne_special (h : v.hasTag Value.specialTag = false) : (v == .nil) = false ∧ (v == .true) = false ∧ (v == .false) = false := by
  simp only [beq_eq_false_iff_ne]
  refine ⟨?_, ?_, ?_⟩ <;> rintro rfl <;> exact absurd h (by decide)

theorem literal_int (h : v.isFixnum = true) :
    literal m (depth + 1) v = pure { kind := Literal.intKind, int := v.toInt } := by
  obtain ⟨hn, ht, hf⟩ := ne_special (Value.hasTag_of_ne h (by decide))
  simp [literal, hn, ht, hf, h]

theorem literal_float (h : v.isFloat = true) :
    literal m (depth + 1) v = pure { kind := Literal.floatKind, float := v.bits } := by
  have hno : ∀ t ∈ Value.tags, v.hasTag t = false := fun t ht => by
    by_contra hv
    rw [Value.isFloat_of_hasTag (Bool.eq_true_of_not_eq_false hv) ht] at h
    cases h
  obtain ⟨hn, ht, hf⟩ := ne_special (hno _ (by decide))
  have hi : v.isFixnum = false := hno _ (by decide)
  simp [literal, hn, ht, hf, hi, h]

theorem literal_symbol (h : v.isSymbol = true) : literal m (depth + 1) v = do
    return { kind := Literal.symbolKind, ident := ← ident v.toSymbol } := by
  obtain ⟨hn, ht, hf⟩ := ne_special (Value.hasTag_of_ne h (by decide))
  have hi : v.isFixnum = false := Value.hasTag_of_ne h (by decide)
  have hfl : v.isFloat = false := Value.isFloat_of_hasTag h (by decide)
  simp [literal, hn, ht, hf, hi, hfl, h]

theorem literal_ref (h : v.isRef = true) : literal m (depth + 1) v = certain (m.heap.read v.toRef) >>= fun o =>
    match o with
    | .string s => pure { kind := Literal.stringKind, text := s }
    | .array elems => elems.toList.mapM (literal m depth) >>= fun ls => pure { kind := Literal.arrayKind, elems := ls }
    | _ => certain (m.inspect v) >>= fun text => refuse (.literal text) := by
  obtain ⟨hn, ht, hf⟩ := ne_special (Value.hasTag_of_ne h (by decide))
  have hi : v.isFixnum = false := Value.hasTag_of_ne h (by decide)
  have hfl : v.isFloat = false := Value.isFloat_of_hasTag h (by decide)
  have hs : v.isSymbol = false := Value.hasTag_of_ne h (by decide)
  simp only [literal, hn, ht, hf, hi, hfl, hs, Bool.false_eq_true, if_false]
  exact if_pos h

theorem not_gives_literal {l : Literal} (hn : v ≠ .nil) (ht : v ≠ .true) (hf : v ≠ .false) (hi : v.isFixnum = false)
    (hfl : v.isFloat = false) (hs : v.isSymbol = false) (hr : v.isRef = false) : ¬ Gives (literal m (depth + 1) v) s l t := by
  intro h
  simp only [literal, beq_eq_false_iff_ne.2 hn, beq_eq_false_iff_ne.2 ht, beq_eq_false_iff_ne.2 hf, hi, hfl, hs, hr,
    Bool.false_eq_true, if_false] at h
  obtain ⟨_, _, -, h⟩ := gives_bind.1 h
  exact not_gives_refuse h

end Kinds

theorem gives_literal {depth : Nat} {v : Value} {l : Literal} (hs : s.Proper m P) (h : Gives (literal m depth v) s l t) :
    s.Grows t ∧ t.Proper m P ∧ l.Denotes m.heap t.Names v := by
  induction depth generalizing s t v l with
  | zero => exact absurd (gives_certain.1 h).1 (by simp)
  | succ depth ih =>
    by_cases hn : v = .nil
    · obtain ⟨rfl, rfl⟩ := gives_pure.1 (literal_nil ▸ hn ▸ h)
      exact ⟨.refl _, hs, hn ▸ .nil rfl⟩
    by_cases ht : v = .true
    · obtain ⟨rfl, rfl⟩ := gives_pure.1 (literal_true ▸ ht ▸ h)
      exact ⟨.refl _, hs, ht ▸ .true rfl⟩
    by_cases hf : v = .false
    · obtain ⟨rfl, rfl⟩ := gives_pure.1 (literal_false ▸ hf ▸ h)
      exact ⟨.refl _, hs, hf ▸ .false rfl⟩
    cases hi : v.isFixnum with
    | true =>
      obtain ⟨rfl, rfl⟩ := gives_pure.1 (literal_int hi ▸ h)
      exact ⟨.refl _, hs, .int rfl hi rfl⟩
    | false =>
      cases hfl : v.isFloat with
      | true =>
        obtain ⟨rfl, rfl⟩ := gives_pure.1 (literal_float hfl ▸ h)
        exact ⟨.refl _, hs, .float rfl hfl rfl⟩
      | false =>
        cases hsy : v.isSymbol with
        | true =>
          obtain ⟨n, u, hid, h⟩ := gives_bind.1 (literal_symbol hsy ▸ h)
          obtain ⟨rfl, rfl⟩ := gives_pure.1 h
          obtain ⟨hg, hp, hnames⟩ := gives_ident hs hid
          exact ⟨hg, hp, .symbol rfl hsy hnames⟩
        | false =>
          cases hr : v.isRef with
          | true =>
            obtain ⟨o, u, ho, h⟩ := gives_bind.1 (literal_ref hr ▸ h)
            obtain ⟨hread, rfl⟩ := gives_certain.1 ho
            cases o with
            | string text =>
              obtain ⟨rfl, rfl⟩ := gives_pure.1 h
              exact ⟨.refl _, hs, .string rfl hr hread⟩
            | array es =>
              obtain ⟨ls, w, hls, h⟩ := gives_bind.1 h
              obtain ⟨rfl, rfl⟩ := gives_pure.1 h
              obtain ⟨hg, hp, hall⟩ := gives_mapM (R := fun t v l => l.Denotes m.heap t.Names v)
                (fun _ _ _ _ hg hl => hl.mono fun _ _ => hg.names) (fun _ _ _ _ _ hs h => ih hs h) hs hls
              refine ⟨hg, hp, .array rfl hr hread hall.length_eq.symm fun i l w hl hw => ?_⟩
              exact forall₂_getElem? hall (by rwa [Array.getElem?_toList]) hl
            | _ =>
              obtain ⟨_, _, -, h⟩ := gives_bind.1 h
              exact absurd h not_gives_refuse
          | false => exact absurd h (not_gives_literal hn ht hf hi hfl hsy hr)

/-! ## Code -/

theorem gives_map {x : Capture α} {g : α → β} {b : β} : Gives (g <$> x) s b t ↔ ∃ a, Gives x s a t ∧ g a = b := by
  rw [← bind_pure_comp, gives_bind]
  constructor
  · rintro ⟨a, u, hx, h⟩
    obtain ⟨rfl, rfl⟩ := gives_pure.1 h
    exact ⟨a, hx, rfl⟩
  · rintro ⟨a, hx, rfl⟩
    exact ⟨a, t, hx, gives_pure.2 ⟨rfl, rfl⟩⟩

/-- How code is renumbered when it is captured. -/
def relocator (m : Machine) : Code.Relocator Capture where
  ident := some fun i => return ⟨← ident i⟩
  fn := some fun f => return ⟨← fn m f⟩

/-- Pieces are the same in the machine and in the numbering of the program. -/
def PieceStored (t : Numbering) : Code.Piece → Code.Piece → Prop :=
  Code.Piece.Alike (fun i j => t.Names j.id i) fun f g => t.Calls g.id f

theorem gives_piece {p p' : Code.Piece} (hp : p.Proper) (hP : ∀ f, p = .fn f → P f) (hs : s.Proper m P)
    (h : Gives ((relocator m).piece p) s p' t) :
    s.Grows t ∧ t.Proper m P ∧ (t.refused = none → PieceStored t p p') := by
  cases p with
  | byte b =>
    obtain ⟨rfl, rfl⟩ := gives_pure.1 h
    exact ⟨.refl _, hs, fun _ => .byte b⟩
  | ident i =>
    obtain ⟨j, hj, rfl⟩ := gives_map.1 h
    obtain ⟨n, u, hn, hj⟩ := gives_bind.1 hj
    obtain ⟨rfl, rfl⟩ := gives_pure.1 hj
    obtain ⟨hg, hp, hnames⟩ := gives_ident hs hn
    exact ⟨hg, hp, fun _ => .ident hnames⟩
  | symbol v =>
    obtain ⟨j, hj, rfl⟩ := gives_map.1 h
    obtain ⟨n, u, hn, hj⟩ := gives_bind.1 hj
    obtain ⟨rfl, rfl⟩ := gives_pure.1 hj
    obtain ⟨hg, hp', hnames⟩ := gives_ident hs hn
    refine ⟨hg, hp', fun _ => .symbol hp (Value.isSymbol_ofSymbol _) ?_⟩
    rwa [Value.toSymbol_ofSymbol]
  | fn f =>
    obtain ⟨j, hj, rfl⟩ := gives_map.1 h
    obtain ⟨n, u, hn, hj⟩ := gives_bind.1 hj
    obtain ⟨rfl, rfl⟩ := gives_pure.1 hj
    obtain ⟨hg, hp', hcalls⟩ := gives_fn hs (hP f rfl) hn
    exact ⟨hg, hp', fun ht => .fn hp (hcalls ht).1 (hcalls ht)⟩

theorem PieceStored.mono {p p' : Code.Piece} (h : PieceStored s p p') (hg : s.Grows t) : PieceStored t p p' :=
  Code.Piece.Alike.mono h (fun _ _ => hg.names) fun _ _ => hg.calls

theorem gives_apply {code : Bytes} {r : Bytes × Option Code.WalkError}
    (hP : ∀ f, Code.Piece.fn f ∈ Code.pieces code.toList → P f) (hs : s.Proper m P)
    (h : Gives ((relocator m).apply code) s r t) : s.Grows t ∧ t.Proper m P ∧ r.2 = Code.flaw? code.toList ∧
      (t.refused = none → List.Forall₂ (PieceStored t) (Code.pieces code.toList) (Code.pieces r.1.toList)) := by
  rw [Code.Relocator.apply_eq] at h
  obtain ⟨ps, hps, rfl⟩ := gives_map.1 h
  obtain ⟨hg, hp, hall⟩ := gives_mapM (R := fun t p p' => t.refused = none → PieceStored t p p')
    (fun _ _ _ _ hg hp ht => (hp (hg.refused ht)).mono hg)
    (fun p hp _ _ _ hs h => gives_piece (Code.proper_pieces p hp) (fun f he => hP f (he ▸ hp)) hs h) hs hps
  refine ⟨hg, hp, rfl, fun ht => ?_⟩
  have hall : List.Forall₂ (PieceStored t) (Code.pieces code.toList) ps := hall.imp fun _ _ hp => hp ht
  rwa [List.toList_toArray, (Code.pieces_render hall).1]

/-! ## Sequences -/

/-- A sequence as it is stored, given its parts that are renumbered. -/
def stored (q : Code.Sequence) (code : Bytes) (name : UInt32) (keywords : List Keyword) (locals : List UInt32)
    (consts : List Literal) : Sequence where
  name := name
  consts := consts
  kind := q.kind.code
  code := if code.isEmpty then none else some code
  params := {
    req := q.params.req, opt := q.params.opt, rest := q.params.rest.code, post := q.params.post
    keywords := nonEmpty keywords
    kwRest := q.params.kwRest, block := q.params.block, delegate := q.params.delegate }
  locals := nonEmpty locals
  kwRestSlot := q.kwRestSlot
  blockSlot := q.blockSlot
  delegateSlot := q.delegateSlot
  methodSites := q.methodSites
  constSites := q.constSites
  handlers := nonEmpty (q.handlers.map fun h => ⟨h.kind.code, h.start, h.stop, h.dest⟩)
  lines := nonEmpty (q.lines.map fun l => ⟨l.offset, l.line⟩)
  path := q.path
  slots := q.slotCount

def keyword (k : Code.Keyword) : Capture Keyword := do return { name := ← ident k.name, slot := k.slot : Keyword }

/-- As deep as arrays of the machine can be nested. -/
def depth (m : Machine) : Nat := m.heap.pages.size * Heap.pageCells + 2

theorem gives_sequence_iff {q : Code.Sequence} {r : Sequence} : Gives (sequence m q) s r t ↔
    ∃ code name keywords locals consts s₁ s₂ s₃ s₄, Gives ((relocator m).apply q.code) s (code, none) s₁ ∧
      Gives (ident q.name) s₁ name s₂ ∧ Gives (q.params.keywords.mapM keyword) s₂ keywords s₃ ∧
      Gives (q.locals.toList.mapM ident) s₃ locals s₄ ∧ Gives (q.consts.toList.mapM (literal m (depth m))) s₄ consts t ∧
      r = stored q code name keywords locals consts := by
  constructor
  · intro h
    obtain ⟨⟨code, stuck⟩, s₁, hcode, h⟩ := gives_bind.1 h
    cases stuck with
    | some e =>
      obtain ⟨_, _, h, -⟩ := gives_bind.1 h
      exact absurd h not_gives_refuse
    | none =>
      obtain ⟨name, s₂, hname, h⟩ := gives_bind.1 h
      obtain ⟨keywords, s₃, hkeywords, h⟩ := gives_bind.1 h
      obtain ⟨locals, s₄, hlocals, h⟩ := gives_bind.1 h
      obtain ⟨consts, s₅, hconsts, h⟩ := gives_bind.1 h
      obtain ⟨rfl, rfl⟩ := gives_pure.1 h
      exact ⟨code, name, keywords, locals, consts, s₁, s₂, s₃, s₄, hcode, hname, hkeywords, hlocals, hconsts, rfl⟩
  · rintro ⟨code, name, keywords, locals, consts, s₁, s₂, s₃, s₄, hcode, hname, hkeywords, hlocals, hconsts, rfl⟩
    refine gives_bind.2 ⟨(code, none), s₁, hcode, ?_⟩
    refine gives_bind.2 ⟨name, s₂, hname, gives_bind.2 ⟨keywords, s₃, hkeywords, ?_⟩⟩
    exact gives_bind.2 ⟨locals, s₄, hlocals, gives_bind.2 ⟨consts, t, hconsts, gives_pure.2 ⟨rfl, rfl⟩⟩⟩

theorem getD_nonEmpty (l : List α) : (nonEmpty l).getD [] = l := by
  cases l <;> rfl

theorem getD_code (code : Bytes) : (if code.isEmpty then none else some code).getD #[] = code := by
  split
  · exact (Array.isEmpty_iff.1 ‹_›).symm
  · rfl

/-- What is stored of a sequence stands for it. -/
theorem gives_sequence {q : Code.Sequence} {r : Sequence} (hP : ∀ f, Machine.Refers q f → P f) (hs : s.Proper m P)
    (h : Gives (sequence m q) s r t) :
    s.Grows t ∧ t.Proper m P ∧ (t.refused = none → r.Denotes m.heap t.Names t.Calls q) := by
  obtain ⟨code, name, keywords, locals, consts, s₁, s₂, s₃, s₄, hcode, hname, hkeywords, hlocals, hconsts, rfl⟩ :=
    gives_sequence_iff.1 h
  obtain ⟨hg₁, hp₁, hflaw, hpieces⟩ := gives_apply hP hs hcode
  obtain ⟨hg₂, hp₂, hname⟩ := gives_ident hp₁ hname
  obtain ⟨hg₃, hp₃, hkeywords⟩ := gives_mapM (R := fun t (k : Code.Keyword) (l : Keyword) => t.Names l.name k.name ∧ l.slot = k.slot)
    (fun _ _ _ _ hg h => ⟨hg.names h.1, h.2⟩)
    (fun _ _ _ _ _ hs h => by
      obtain ⟨n, u, hn, h⟩ := gives_bind.1 h
      obtain ⟨rfl, rfl⟩ := gives_pure.1 h
      obtain ⟨hg, hp, hnames⟩ := gives_ident hs hn
      exact ⟨hg, hp, hnames, rfl⟩) hp₂ hkeywords
  obtain ⟨hg₄, hp₄, hlocals⟩ := gives_mapM (R := fun t i n => t.Names n i) (fun _ _ _ _ hg h => hg.names h)
    (fun _ _ _ _ _ hs h => gives_ident hs h) hp₃ hlocals
  obtain ⟨hg₅, hp₅, hconsts⟩ := gives_mapM (R := fun t v l => l.Denotes m.heap t.Names v)
    (fun _ _ _ _ hg h => h.mono fun _ _ => hg.names) (fun _ _ _ _ _ hs h => gives_literal hs h) hp₄ hconsts
  have hg₁₅ := hg₂.trans (hg₃.trans (hg₄.trans hg₅))
  refine ⟨hg₁.trans hg₁₅, hp₅, fun ht => ?_⟩
  exact
    { name := (hg₃.trans (hg₄.trans hg₅)).names hname
      kind := rfl
      code := by
        rw [stored, getD_code]
        exact ((hpieces (hg₁₅.refused ht)).imp fun _ _ hp => (hp.mono hg₁₅).flip (fun _ _ h => h) fun _ _ h => h).flip
      readable := hflaw.symm
      req := rfl
      opt := rfl
      rest := rfl
      post := rfl
      keywords := by
        rw [stored, getD_nonEmpty]
        exact (hkeywords.imp fun _ _ hk => ⟨(hg₄.trans hg₅).names hk.1, hk.2⟩).flip
      kwRest := rfl
      block := rfl
      delegate := rfl
      locals := by
        rw [stored, getD_nonEmpty]
        exact (hlocals.imp fun _ _ hn => hg₅.names hn).flip
      kwRestSlot := rfl
      blockSlot := rfl
      delegateSlot := rfl
      slots := rfl
      consts := hconsts.flip
      methodSites := rfl
      constSites := rfl
      handlers := by
        rw [stored, getD_nonEmpty, List.forall₂_map_left_iff]
        exact List.forall₂_same.2 fun _ _ => ⟨rfl, rfl, rfl, rfl⟩
      lines := by
        rw [stored, getD_nonEmpty, List.map_map]
        exact List.map_id _
      path := rfl }

theorem gives_sequences_succ {fuel done : Nat} {rs : List Sequence} : Gives (sequences m (fuel + 1) done) s rs t ↔
    (s.refused ≠ none ∨ s.fns[done]? = none) ∧ rs = [] ∧ s = t ∨
    s.refused = none ∧ ∃ f q r u rest, s.fns[done]? = some f ∧ m.functions.sequence f = .ok q ∧
      Gives (sequence m q) s r u ∧ Gives (sequences m fuel (done + 1)) u rest t ∧ rs = r :: rest := by
  rw [sequences, gives_bind]
  simp only [gives_get]
  constructor
  · rintro ⟨_, _, ⟨rfl, rfl⟩, h⟩
    cases hr : s.refused with
    | some f =>
      rw [hr] at h
      obtain ⟨rfl, rfl⟩ := gives_pure.1 h
      exact .inl ⟨.inl (by simp), rfl, rfl⟩
    | none =>
      rw [hr] at h
      cases hf : s.fns[done]? with
      | none =>
        rw [hf] at h
        obtain ⟨rfl, rfl⟩ := gives_pure.1 h
        exact .inl ⟨.inr rfl, rfl, rfl⟩
      | some f =>
        rw [hf] at h
        obtain ⟨q, _, hq', h⟩ := gives_bind.1 h
        obtain ⟨hq, rfl⟩ := gives_certain.1 hq'
        obtain ⟨r, u, hseq, h⟩ := gives_bind.1 h
        obtain ⟨rest, _, hrest, h⟩ := gives_bind.1 h
        obtain ⟨rfl, rfl⟩ := gives_pure.1 h
        exact .inr ⟨rfl, f, q, r, u, rest, rfl, hq, hseq, hrest, rfl⟩
  · rintro (⟨hstop, rfl, rfl⟩ | ⟨hr, f, q, r, u, rest, hf, hq, hseq, hrest, rfl⟩)
    · refine ⟨s, s, ⟨rfl, rfl⟩, ?_⟩
      cases hr : s.refused with
      | some f => exact gives_pure.2 ⟨rfl, rfl⟩
      | none =>
        rw [hstop.resolve_left (not_not.2 hr)]
        exact gives_pure.2 ⟨rfl, rfl⟩
    · refine ⟨s, s, ⟨rfl, rfl⟩, ?_⟩
      rw [hr, hf]
      refine gives_bind.2 ⟨q, s, gives_certain.2 ⟨hq, rfl⟩, gives_bind.2 ⟨r, u, hseq, ?_⟩⟩
      exact gives_bind.2 ⟨rest, t, hrest, gives_pure.2 ⟨rfl, rfl⟩⟩

/-- Every function that is met from `done` on is taken. -/
theorem gives_sequences {fuel done : Nat} {rs : List Sequence}
    (hP : ∀ f q g, P f → m.functions.sequence f = .ok q → Machine.Refers q g → P g) (hfuel : m.functions.size ≤ fuel + done)
    (hs : s.Proper m P) (h : Gives (sequences m fuel done) s rs t) : s.Grows t ∧ t.Proper m P ∧ (t.refused = none →
      List.Forall₂ (fun f r => ∃ q, m.functions.sequence f = .ok q ∧ r.Denotes m.heap t.Names t.Calls q)
        (t.fns.toList.drop done) rs) := by
  induction fuel generalizing s done rs with
  | zero =>
    obtain ⟨rfl, rfl⟩ := gives_pure.1 h
    refine ⟨.refl s, hs, fun _ => ?_⟩
    rw [List.drop_of_length_le (by have := hs.length_fns.1; simp; omega)]
    exact .nil
  | succ fuel ih =>
    rcases gives_sequences_succ.1 h with ⟨hstop, rfl, rfl⟩ | ⟨-, f, q, r, u, rest, hf, hq, hr, hrest, rfl⟩
    · refine ⟨.refl s, hs, fun hr => ?_⟩
      have hnone := hstop.resolve_left (not_not.2 hr)
      rw [List.drop_of_length_le (by simpa using hnone)]
      exact .nil
    · have hPf : P f := (hs.bytecode f (Array.mem_of_getElem? hf)).2
      obtain ⟨hg, hp, hden⟩ := gives_sequence (fun g => hP f q g hPf hq) hs hr
      obtain ⟨hg', hp', hall⟩ := ih (by omega) hp hrest
      refine ⟨hg.trans hg', hp', fun ht => ?_⟩
      have htf : t.fns.toList[done]? = some f := by
        rw [Array.getElem?_toList]
        exact Numbering.getElem?_of_prefix (hg.trans hg').fns hf
      obtain ⟨hlt, hget⟩ := List.getElem?_eq_some_iff.1 htf
      rw [List.drop_eq_getElem_cons hlt, hget]
      exact .cons ⟨q, hq, (hden (hg'.refused ht)).mono (fun _ _ => hg'.names) fun _ _ => hg'.calls⟩ (hall ht)

end Capture

/-! ## Programs -/

variable {m : Machine} {entry : FnId} {u : Program}

/-- The program that a numbering and its sequences make up. -/
def ofNumbering (m : Machine) (entry : UInt32) (rs : List Sequence) (t : Numbering) : Program where
  version := formatVersion
  idents := some (t.idents.toList.map m.idents.name)
  sequences := some rs
  entry := entry
  source := (rs.head?.map Sequence.path).getD ""

/-- What is done to capture a program. -/
def work (m : Machine) (entry : FnId) : Capture (UInt32 × List Sequence) := do
  let entry ← Capture.fn m entry
  return (entry, ← Capture.sequences m m.functions.size 0)

theorem capture_run : (capture m entry).run = match ((work m entry) {}).run with
    | .ok (.ok ((n, rs), t)) =>
      match t.refused with
      | some f => .ok (.error (.notBytecode f))
      | none => .ok (.ok (ofNumbering m n rs t))
    | .ok (.error e) => .ok (.error e)
    | .error d => .error d := by
  change (ExceptT.bind ((work m entry).run {}) _) = _
  unfold ExceptT.bind ExceptT.mk ExceptT.run StateT.run
  generalize work m entry {} = r
  match r with
  | .error d => rfl
  | .ok (.error e) => rfl
  | .ok (.ok ((n, rs), ⟨idents, fns, some f⟩)) => rfl
  | .ok (.ok ((n, rs), ⟨idents, fns, none⟩)) => rfl

theorem capture_eq_ok : (capture m entry).run = .ok (.ok u) ↔ ∃ n rs s t, Capture.Gives (Capture.fn m entry) {} n s ∧
    Capture.Gives (Capture.sequences m m.functions.size 0) s rs t ∧ t.refused = none ∧ u = ofNumbering m n rs t := by
  constructor
  · intro h
    cases hw : ((work m entry) {}).run with
    | error d => rw [capture_run, hw] at h; cases h
    | ok x =>
      cases x with
      | error e => rw [capture_run, hw] at h; cases h
      | ok x =>
        obtain ⟨r, t'⟩ := x
        obtain ⟨n, s, hn, hw'⟩ := Capture.gives_bind.1 (show Capture.Gives (work m entry) {} r t' from hw)
        obtain ⟨rs, t, hrs, hw'⟩ := Capture.gives_bind.1 hw'
        obtain ⟨rfl, rfl⟩ := Capture.gives_pure.1 hw'
        rw [capture_run, hw] at h
        cases hr : t.refused with
        | some f => simp [hr] at h
        | none => exact ⟨n, rs, s, t, hn, hrs, hr, by simpa [hr] using h.symm⟩
  · rintro ⟨n, rs, s, t, hn, hrs, hr, rfl⟩
    have hw : Capture.Gives (work m entry) {} (n, rs) t :=
      Capture.gives_bind.2 ⟨n, s, hn, Capture.gives_bind.2 ⟨rs, t, hrs, Capture.gives_pure.2 ⟨rfl, rfl⟩⟩⟩
    rw [capture_run, show ((work m entry) {}).run = _ from hw]
    simp [hr]

/-- A captured program stands for the functions that its entry leads to, in the order of their numbers. -/
theorem captured (h : (capture m entry).run = .ok (.ok u)) : ∃ (t : Numbering) (rs : List Sequence),
    t.Proper m (m.Reaches entry) ∧ t.fns[0]? = some entry ∧ u = ofNumbering m 1 rs t ∧
      List.Forall₂ (fun f r => ∃ q, m.functions.sequence f = .ok q ∧ r.Denotes m.heap t.Names t.Calls q) t.fns.toList rs := by
  obtain ⟨n, rs, s, t, hfn, hrs, hr, rfl⟩ := capture_eq_ok.1 h
  have hempty : ({} : Numbering).Proper m (m.Reaches entry) :=
    ⟨by simp, by simp, rfl, fun f hf => by simp at hf⟩
  obtain ⟨hg, hp, hcalls⟩ := Capture.gives_fn hempty .entry hfn
  obtain ⟨hg', hp', hall⟩ := Capture.gives_sequences (fun f q g hf hq hg => .refer hf hq hg) (by simp) hp hrs
  have hfirst : n = 1 ∧ s.fns[0]? = some entry := by
    have hs := Capture.gives_modifyGet.1 hfn
    simp only [Array.findIdx?_empty] at hs
    by_cases hb : Capture.isBytecode m entry = true
    · rw [if_pos hb] at hs
      obtain ⟨rfl, rfl⟩ := Prod.mk.inj hs
      exact ⟨rfl, rfl⟩
    · rw [if_neg hb] at hs
      obtain ⟨rfl, rfl⟩ := Prod.mk.inj hs
      exact absurd (hg'.refused hr) (by simp)
  obtain ⟨rfl, hs⟩ := hfirst
  exact ⟨t, rs, hp', Numbering.getElem?_of_prefix hg'.fns hs, rfl, hall hr⟩

end Program

end RubyMachine
