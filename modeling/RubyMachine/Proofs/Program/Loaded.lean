import RubyMachine.Program.Load
import RubyMachine.Proofs.Heap.Room
import RubyMachine.Proofs.Program.Denotation
import RubyMachine.Proofs.Value.Kinds

/-! Loading a program that stands for sequences gives sequences that it stands for, in the numbering of the
machine it is loaded into. -/

namespace RubyMachine

/-- What loading asks of a sequence, apart from its numbers. -/
structure Code.Sequence.Loadable (q : Code.Sequence) : Prop where
  kwRest : ∀ n, q.kwRestSlot = some n → n.toNat < q.locals.size
  block : ∀ n, q.blockSlot = some n → n.toNat < q.locals.size
  delegate : ∀ n, q.delegateSlot = some n → n.toNat < q.locals.size
  handlers : ∀ x ∈ q.handlers, 0 ≤ x.start ∧ x.stop ≤ q.code.size ∧ 0 ≤ x.dest ∧ x.dest ≤ q.code.size

namespace Program.Loading

/-- What the number of a name stands for. -/
def Names (names : Array Ident) (n : UInt32) (i : Ident) : Prop := names[n.toNat]? = some i

variable {h h' : Heap Object} {I : UInt32 → Ident → Prop} {F : UInt32 → FnId → Prop} {names : Array Ident} {count : Nat}

/-! ## Code -/

/-- How code is renumbered when it is loaded. -/
def relocator (names : Array Ident) (count : Nat) : Code.Relocator (StateM (Option Flaw)) where
  ident := some fun i =>
    match identOf names i.id with
    | .ok j => return j
    | .error e => do
      modify (·.or (some e))
      return .none
  fn := some fun f => do
    if f.id.toNat > count then modify (·.or (some (.fn f.id)))
    return f

theorem relocate_of_run {code code' : Bytes}
    (h : ((relocator names count).apply code).run none = ((code', none), none)) : relocate names count code = .ok code' := by
  unfold relocate
  extract_lets r
  rw [show (r.apply code).run none = ((code', none), none) from h]

theorem identOf_eq (n : UInt32) (hn : n.toNat < names.size) : ∃ i, identOf names n = .ok i ∧ Names names n i := by
  have hi : names[n.toNat]? = some names[n.toNat] := Array.getElem?_eq_getElem hn
  refine ⟨_, ?_, hi⟩
  rw [identOf, hi]

/-- Every number of a name is that of one of the names, and every number of a function that of a sequence. -/
structure Numbered (names : Array Ident) (count : Nat) (I : UInt32 → Ident → Prop) (F : UInt32 → FnId → Prop) : Prop where
  ident : ∀ n i, I n i → n.toNat < names.size
  fn : ∀ n f, F n f → n.toNat ≤ count

theorem piece_run (hn : Numbered names count I F) {p p' : Code.Piece}
    (hp : p.Alike (fun i j => I i.id j) (fun f g => F f.id g) p') : ∃ q, ((relocator names count).piece p).run none = (q, none) ∧
      p.Alike (fun i j => Names names i.id j) (fun f g => g = f ∧ f.id.toNat ≤ count) q := by
  cases hp with
  | byte b => exact ⟨_, rfl, .byte b⟩
  | @ident i j h =>
    obtain ⟨k, hk, hnames⟩ := identOf_eq i.id (hn.ident _ _ h)
    refine ⟨.ident k, ?_, .ident hnames⟩
    simp [Code.Relocator.piece, relocator, hk]
    rfl
  | @symbol v w hv hw h =>
    obtain ⟨k, hk, hnames⟩ := identOf_eq v.toSymbol.id (hn.ident _ _ h)
    refine ⟨.symbol (.ofSymbol k), ?_, .symbol hv (Value.isSymbol_ofSymbol k) ?_⟩
    · simp [Code.Relocator.piece, relocator, hk]
      rfl
    · rwa [Value.toSymbol_ofSymbol]
  | @fn f g hf _ h =>
    refine ⟨.fn f, ?_, .fn hf hf ⟨rfl, hn.fn _ _ h⟩⟩
    simp [Code.Relocator.piece, relocator, Nat.not_lt.2 (hn.fn _ _ h)]
    rfl

theorem pieces_run (hn : Numbered names count I F) {ps qs : List Code.Piece}
    (hp : List.Forall₂ (Code.Piece.Alike (fun i j => I i.id j) fun f g => F f.id g) ps qs) :
    ∃ rs, (ps.mapM (relocator names count).piece).run none = (rs, none) ∧
      List.Forall₂ (Code.Piece.Alike (fun i j => Names names i.id j) fun f g => g = f ∧ f.id.toNat ≤ count) ps rs := by
  induction hp with
  | nil => exact ⟨[], rfl, .nil⟩
  | cons hp _ ih =>
    obtain ⟨r, hr, hr'⟩ := piece_run hn hp
    obtain ⟨rs, hrs, hrs'⟩ := ih
    refine ⟨r :: rs, ?_, .cons hr' hrs'⟩
    rw [List.mapM_cons, StateT.run_bind, hr]
    exact (StateT.run_bind _ _ none).trans (by rw [hrs]; rfl)

theorem relocate_ok (hn : Numbered names count I F) {code : Bytes} {qs : List Code.Piece} (hflaw : Code.flaw? code.toList = none)
    (hp : List.Forall₂ (Code.Piece.Alike (fun i j => I i.id j) fun f g => F f.id g) (Code.pieces code.toList) qs) :
    ∃ code', relocate names count code = .ok code' ∧
      List.Forall₂ (Code.Piece.Alike (fun i j => Names names i.id j) fun f g => g = f ∧ f.id.toNat ≤ count) (Code.pieces code.toList)
        (Code.pieces code'.toList) := by
  obtain ⟨rs, hrs, hall⟩ := pieces_run hn hp
  refine ⟨(Code.render rs).toArray, ?_, ?_⟩
  · refine relocate_of_run ?_
    rw [Code.Relocator.apply_eq, hflaw, StateT.run_map, hrs]
    rfl
  · rwa [List.toList_toArray, (Code.pieces_render hall).1]

/-! ## The outline of a sequence -/

theorem ok_bind {α β ε : Type} (a : α) (f : α → Except ε β) : (Except.ok a >>= f) = f a := rfl

theorem mapM_ok {α β ε : Type} {R : α → β → Prop} {f : α → Except ε β} {l : List α}
    (hf : ∀ a ∈ l, ∃ b, f a = .ok b ∧ R a b) : ∃ bs, l.mapM f = .ok bs ∧ List.Forall₂ R l bs := by
  induction l with
  | nil => exact ⟨[], rfl, .nil⟩
  | cons a l ih =>
    obtain ⟨b, hb, hr⟩ := hf a (by simp)
    obtain ⟨bs, hbs, hrs⟩ := ih fun a ha => hf a (by simp [ha])
    exact ⟨b :: bs, by rw [List.mapM_cons, hb, hbs]; rfl, .cons hr hrs⟩

theorem slot_ok (locals : List Ident) (n : Option UInt32) (h : ∀ k, n = some k → k.toNat < locals.length) :
    slot locals n = .ok n := by
  cases n with
  | none => rfl
  | some k => exact if_pos (h k rfl)

/-- What loading makes of a sequence before its literals and handlers. -/
def outlined (s : Sequence) (name : Ident) (code : Bytes) (keywords : List Code.Keyword) (locals : List Ident) :
    Code.Sequence where
  name := name
  code := code
  kind := .ofCode s.kind
  params := {
    req := s.params.req, opt := s.params.opt, rest := .ofCode s.params.rest, post := s.params.post
    keywords, kwRest := s.params.kwRest, block := s.params.block, delegate := s.params.delegate }
  locals := locals.toArray
  kwRestSlot := s.kwRestSlot
  blockSlot := s.blockSlot
  delegateSlot := s.delegateSlot
  slots := s.slots
  methodSites := s.methodSites
  constSites := s.constSites
  lines := (s.lines.getD []).map fun l => ⟨l.offset, l.line⟩
  path := s.path

theorem outline_ok (hn : Numbered names count I F) {s : Sequence} {q : Code.Sequence} (hs : s.Denotes h I F q)
    (hq : q.Loadable) : ∃ name code keywords locals, outline names count s = .ok (outlined s name code keywords locals) ∧
      Names names s.name name ∧
      List.Forall₂ (Code.Piece.Alike (fun i j => Names names i.id j) fun f g => g = f ∧ f.id.toNat ≤ count)
        (Code.pieces (s.code.getD #[]).toList) (Code.pieces code.toList) ∧
      List.Forall₂ (fun k l => Names names k.name l.name ∧ k.slot = l.slot) (s.params.keywords.getD []) keywords ∧
      List.Forall₂ (Names names) (s.locals.getD []) locals := by
  obtain ⟨name, hname, hname'⟩ := identOf_eq s.name (hn.ident _ _ hs.name)
  have hflaw : Code.flaw? (s.code.getD #[]).toList = none := by
    have h := (Code.pieces_render hs.code).2
    rw [Code.render_pieces] at h
    exact h.symm.trans hs.readable
  obtain ⟨code, hcode, hcode'⟩ := relocate_ok hn hflaw hs.code
  obtain ⟨keywords, hk, hk'⟩ := mapM_ok (R := fun (k : Keyword) (l : Code.Keyword) =>
      Names names k.name l.name ∧ k.slot = l.slot) (l := s.params.keywords.getD [])
    (f := fun k => return { name := ← identOf names k.name, slot := k.slot : Code.Keyword }) fun k hk => by
      obtain ⟨l, -, hl, -⟩ := exists_of_forall₂ hs.keywords k hk
      obtain ⟨i, hi, hi'⟩ := identOf_eq k.name (hn.ident _ _ hl)
      exact ⟨⟨i, k.slot⟩, by rw [hi]; rfl, hi', rfl⟩
  obtain ⟨locals, hl, hl'⟩ := mapM_ok (R := Names names) (f := identOf names) (l := s.locals.getD []) fun n hn' => by
    obtain ⟨i, -, hi⟩ := exists_of_forall₂ hs.locals n hn'
    exact identOf_eq n (hn.ident _ _ hi)
  have hsize : locals.length = q.locals.size := by
    rw [← hl'.length_eq, hs.locals.length_eq, Array.length_toList]
  refine ⟨name, code, keywords, locals, ?_, hname', hcode', hk', hl'⟩
  have hkw := slot_ok locals s.kwRestSlot fun k h => hsize ▸ hq.kwRest k (hs.kwRestSlot ▸ h)
  have hb := slot_ok locals s.blockSlot fun k h => hsize ▸ hq.block k (hs.blockSlot ▸ h)
  have hd := slot_ok locals s.delegateSlot fun k h => hsize ▸ hq.delegate k (hs.delegateSlot ▸ h)
  simp only [outline, hname, ok_bind, hcode, hk, hl, hkw, hb, hd]
  rfl

end Program.Loading

/-! ## Literals -/

namespace Program

mutual

/-- Objects that a literal may take: one for itself and those of its elements. -/
def Literal.objects : Literal → Nat
  | ⟨_, _, _, _, _, elems⟩ => 1 + Literal.objectsOf elems

def Literal.objectsOf : List Literal → Nat
  | [] => 0
  | l :: ls => l.objects + Literal.objectsOf ls

end

theorem Literal.objects_eq (l : Literal) : l.objects = 1 + Literal.objectsOf l.elems := by
  obtain ⟨kind, int, float, text, ident, elems⟩ := l
  rfl

theorem Literal.Denotes.extend {h h' : Heap Object} {I : UInt32 → Ident → Prop} {l : Literal} {v : Value} (hl : l.Denotes h I v)
    (hr : ∀ r o, h.read r = .ok o → h'.read r = .ok o) : l.Denotes h' I v := by
  induction hl with
  | nil hk => exact .nil hk
  | true hk => exact .true hk
  | false hk => exact .false hk
  | int hk hv hn => exact .int hk hv hn
  | float hk hv hb => exact .float hk hv hb
  | symbol hk hv hn => exact .symbol hk hv hn
  | string hk hv ho => exact .string hk hv (hr _ _ ho)
  | array hk hv ho hlen _ ih => exact .array hk hv (hr _ _ ho) hlen ih

theorem Sequence.Denotes.extend {h h' : Heap Object} {I : UInt32 → Ident → Prop} {F : UInt32 → FnId → Prop} {s : Sequence}
    {q : Code.Sequence} (hs : s.Denotes h I F q) (hr : ∀ r o, h.read r = .ok o → h'.read r = .ok o) :
    s.Denotes h' I F q :=
  { hs with consts := hs.consts.imp fun _ _ hl => hl.extend hr }

end Program

/-- The machine differs in its heap only, which has the old objects and at most `n` pages more. -/
structure Machine.Stocked (n : Nat) (m m' : Machine) : Prop where
  rest : m' = { m with heap := m'.heap }
  heap : m.heap.Extends n m'.heap

namespace Machine.Stocked

variable {m m' m'' : Machine} {n k : Nat}

theorem refl (hi : m.heap.Inv) : m.Stocked 0 m := ⟨rfl, .refl hi⟩

theorem trans (h : m.Stocked n m') (h' : m'.Stocked k m'') : m.Stocked (n + k) m'' :=
  ⟨by rw [h'.rest, h.rest], h.heap.trans h'.heap⟩

theorem weaken (h : m.Stocked n m') (hk : n ≤ k) : m.Stocked k m' := ⟨h.rest, h.heap.weaken hk⟩

end Machine.Stocked

theorem Exec.alloc_stocked {m : Machine} (hi : m.heap.Inv) (hs : m.heap.pages.size < Heap.maxPages) (o : Object) :
    ∃ v m', Exec.alloc o m = .ok v m' ∧ v.isRef = true ∧ m'.heap.read v.toRef = .ok o ∧ m.Stocked 1 m' := by
  obtain ⟨v, h', hrun, hv, hread, he⟩ := Heap.alloc_extends hi hs o
  refine ⟨v, { m with heap := h' }, ?_, hv, hread, rfl, he⟩
  simp [Exec.alloc, Exec.onHeap, hrun]

namespace Program.Loading

/-- Loading a part gives a result. -/
def Gives {α : Type} (x : Loading α) (m : Machine) (a : α) (m' : Machine) : Prop := x.run m = .ok (.ok a) m'

variable {h : Heap Object} {I : UInt32 → Ident → Prop} {F : UInt32 → FnId → Prop} {names : Array Ident} {count : Nat}
  {α β : Type} {m m' m'' : Machine}

theorem gives_pure (a : α) (m : Machine) : Gives (pure a) m a m := rfl

theorem gives_lift {x : Exec α} {a : α} (hx : x m = .ok a m') : Gives (liftM x) m a m' := by
  change (x >>= fun a => pure (Except.ok a)) m = _
  rw [bind_apply, hx]
  rfl

theorem gives_check {a : α} {x : Except Flaw α} (hx : x = .ok a) (m : Machine) : Gives (check x) m a m := by
  rw [hx]
  rfl

theorem Gives.bind {x : Loading α} {f : α → Loading β} {a : α} {b : β} (hx : Gives x m a m') (hf : Gives (f a) m' b m'') :
    Gives (x >>= f) m b m'' := by
  change (x.run >>= ExceptT.bindCont f) m = _
  rw [bind_apply, hx]
  exact hf

/-- A literal can be loaded: given room for its objects, it gives a value that it stands for. -/
def Loads (names : Array Ident) (l : Literal) : Prop :=
  ∀ m : Machine, m.heap.Inv → m.heap.pages.size + l.objects ≤ Heap.maxPages →
    ∃ v m', Gives (literal names l) m v m' ∧ m.Stocked l.objects m' ∧ l.Denotes m'.heap (Names names) v

theorem gives_literals {ls : List Literal} (hl : ∀ l ∈ ls, Loads names l) (hi : m.heap.Inv)
    (hs : m.heap.pages.size + Literal.objectsOf ls ≤ Heap.maxPages) :
    ∃ vs m', Gives (literals names ls) m vs m' ∧ m.Stocked (Literal.objectsOf ls) m' ∧
      List.Forall₂ (Literal.Denotes m'.heap (Names names)) ls vs := by
  induction ls generalizing m with
  | nil => exact ⟨[], m, rfl, .refl hi, .nil⟩
  | cons l ls ih =>
    rw [Literal.objectsOf] at hs
    obtain ⟨v, m₁, hv, hst, hd⟩ := hl l (by simp) m hi (by omega)
    obtain ⟨vs, m₂, hvs, hst', hds⟩ := ih (fun l hl' => hl l (by simp [hl'])) hst.heap.inv
      (by have := hst.heap.pages; omega)
    refine ⟨v :: vs, m₂, ?_, hst.trans hst', .cons (hd.extend hst'.heap.read) hds⟩
    rw [literals]
    exact hv.bind (hvs.bind (gives_pure _ _))

/-- An immediate value leaves the machine as it is. -/
theorem loads_immediate {l : Literal} {v : Value} (hg : ∀ m, Gives (literal names l) m v m)
    (hd : ∀ m : Machine, l.Denotes m.heap (Names names) v) : Loads names l := fun m hi _ =>
  ⟨v, m, hg m, (Machine.Stocked.refl hi).weaken (Nat.zero_le _), hd m⟩

theorem loads_string {l : Literal} (hk : l.kind = Literal.stringKind) : Loads names l := by
  obtain ⟨kind, int, float, text, ident, elems⟩ := l
  cases hk
  intro m hi hs
  rw [Literal.objects_eq] at hs ⊢
  obtain ⟨v, m', hrun, hv, hread, hst⟩ := Exec.alloc_stocked hi (by omega) (.string text)
  exact ⟨v, m', gives_lift hrun, hst.weaken (Nat.le_add_right _ _), .string rfl hv hread⟩

theorem loads_array {l : Literal} (hk : l.kind = Literal.arrayKind) (hall : ∀ e ∈ l.elems, Loads names e) : Loads names l := by
  obtain ⟨kind, int, float, text, ident, elems⟩ := l
  cases hk
  intro m hi hs
  rw [Literal.objects_eq] at hs ⊢
  dsimp only at hs hall ⊢
  obtain ⟨vs, m₁, hvs, hst, hd⟩ := gives_literals hall hi (by omega)
  obtain ⟨v, m₂, hrun, hv, hread, hst'⟩ := Exec.alloc_stocked hst.heap.inv
    (by have := hst.heap.pages; omega) (.array vs.toArray)
  refine ⟨v, m₂, hvs.bind (f := fun vs => liftM (Exec.newArray vs)) (gives_lift hrun),
    (hst.trans hst').weaken (by omega), .array rfl hv hread (by simpa using hd.length_eq) ?_⟩
  intro i x y hx hy
  exact (forall₂_getElem? hd hx (by simpa using hy)).extend hst'.heap.read

/-- A literal that stands for a value made of constructed ones can be loaded. -/
theorem loads_of_denotes (hn : Numbered names count I F) {l : Literal} {v : Value} (hl : l.Denotes h I v)
    (hv : ∀ w, h.Within v w → w.Built) : Loads names l := by
  induction hl with
  | @nil l hk =>
    obtain ⟨kind, int, float, text, ident, elems⟩ := l
    cases hk
    exact loads_immediate (fun _ => rfl) fun _ => .nil rfl
  | @true l hk =>
    obtain ⟨kind, int, float, text, ident, elems⟩ := l
    cases hk
    exact loads_immediate (fun _ => rfl) fun _ => .true rfl
  | @false l hk =>
    obtain ⟨kind, int, float, text, ident, elems⟩ := l
    cases hk
    exact loads_immediate (fun _ => rfl) fun _ => .false rfl
  | @int l v hk hi hint =>
    obtain ⟨kind, int, float, text, ident, elems⟩ := l
    cases hk
    obtain rfl : int = v.toInt := hint
    refine loads_immediate (v := .ofInt v.toInt) (fun m => ?_) fun _ =>
      .int rfl (Value.isFixnum_ofInt _) (Value.toInt_ofInt (Value.toInt_bounds v)).symm
    rw [literal, Value.ofInt?_toInt]
    exact gives_pure _ m
  | @float l v hk hf hb =>
    obtain ⟨kind, int, float, text, ident, elems⟩ := l
    cases hk
    obtain rfl : float = v.bits := hb
    have hbuilt := (hv v (.self v)).ofFloatBits hf
    refine loads_immediate (v := v) (fun m => ?_) fun _ => .float rfl hf rfl
    change Gives (pure (Value.ofFloatBits v.bits)) m v m
    rw [hbuilt]
    exact gives_pure _ m
  | @symbol l v hk hs hi =>
    obtain ⟨kind, int, float, text, ident, elems⟩ := l
    cases hk
    obtain ⟨i, hid, hnames⟩ := identOf_eq ident (hn.ident _ _ hi)
    refine loads_immediate (v := .ofSymbol i) (fun m => ?_) fun _ => .symbol rfl (Value.isSymbol_ofSymbol i) ?_
    · exact (gives_check hid m).bind (f := fun i => pure (Value.ofSymbol i)) (gives_pure _ m)
    · rwa [Value.toSymbol_ofSymbol]
  | string hk => exact loads_string hk
  | @array l es v hk hr ho hlen _ ih =>
    refine loads_array hk fun e he => ?_
    obtain ⟨i, hlt, rfl⟩ := List.getElem_of_mem he
    obtain ⟨w, hw⟩ : ∃ w, es[i]? = some w := ⟨_, Array.getElem?_eq_getElem (hlen ▸ hlt)⟩
    exact ih i _ _ (List.getElem?_eq_getElem hlt) hw fun x hx => hv x (.elem hr ho (Array.mem_of_getElem? hw) hx)

/-! ## Sequences -/

theorem code_ofCode_kind (n : UInt8) : (Code.SequenceKind.ofCode n).code = n := by
  unfold Code.SequenceKind.ofCode
  split <;> rfl

theorem code_ofCode_rest (n : UInt8) : (Code.RestKind.ofCode n).code = n := by
  unfold Code.RestKind.ofCode
  split <;> rfl

theorem code_ofCode_handler (n : UInt8) : (Code.HandlerKind.ofCode n).code = n := by
  unfold Code.HandlerKind.ofCode
  split <;> rfl

theorem handlers_ok {s : Sequence} {q : Code.Sequence} {size : Nat} (hs : List.Forall₂ (fun x y => x.kind = y.kind.code ∧
      x.start = y.start ∧ x.stop = y.stop ∧ x.dest = y.dest) (s.handlers.getD []) q.handlers) (hsize : size = q.code.size)
    (hq : ∀ x ∈ q.handlers, 0 ≤ x.start ∧ x.stop ≤ q.code.size ∧ 0 ≤ x.dest ∧ x.dest ≤ q.code.size) :
    ∃ xs, (s.handlers.getD []).mapM (handler size) = .ok xs ∧
      List.Forall₂ (fun x y => x.kind = y.kind.code ∧ x.start = y.start ∧ x.stop = y.stop ∧ x.dest = y.dest)
        (s.handlers.getD []) xs := by
  refine mapM_ok fun x hx => ?_
  obtain ⟨i, hlt, rfl⟩ := List.getElem_of_mem hx
  have hlt' := hs.length_eq ▸ hlt
  obtain ⟨-, hstart, hstop, hdest⟩ := hs.get hlt hlt'
  obtain ⟨h₁, h₂, h₃, h₄⟩ := hq _ (List.getElem_mem hlt')
  simp only [List.get_eq_getElem] at hstart hstop hdest
  refine ⟨_, if_neg ?_, (code_ofCode_handler _).symm, rfl, rfl, rfl⟩
  rw [hstart, hstop, hdest]
  omega

/-- A stored sequence that stands for one that can be loaded is loaded, and stands for what was loaded. The
functions keep the numbers of the program. -/
theorem gives_sequence (hn : Numbered names count I F) {s : Sequence} {q : Code.Sequence} (hs : s.Denotes h I F q)
    (hq : q.Loadable) (hb : ∀ v ∈ q.consts, ∀ w, h.Within v w → w.Built) (hi : m.heap.Inv)
    (hroom : m.heap.pages.size + Literal.objectsOf s.consts ≤ Heap.maxPages) :
    ∃ r m', Gives (sequence names count s) m r m' ∧ m.Stocked (Literal.objectsOf s.consts) m' ∧
      s.Denotes m'.heap (Names names) (fun n f => f.id = n ∧ n.toNat ≤ count) r := by
  obtain ⟨name, code, keywords, locals, ho, hname, hcode, hkeywords, hlocals⟩ := outline_ok hn hs hq
  have hloads : ∀ l ∈ s.consts, Loads names l := by
    intro l hl
    obtain ⟨i, hlt, rfl⟩ := List.getElem_of_mem hl
    have hlt' := hs.consts.length_eq ▸ hlt
    exact loads_of_denotes hn (hs.consts.get hlt hlt') (hb _ (Array.mem_toList_iff.1 (List.getElem_mem hlt')))
  obtain ⟨vs, m', hvs, hst, hvals⟩ := gives_literals hloads hi hroom
  have hsize : code.size = q.code.size := (Code.size_of_alike hcode).symm.trans (Code.size_of_alike hs.code)
  obtain ⟨xs, hxs, hhandlers⟩ := handlers_ok hs.handlers hsize hq.handlers
  refine ⟨{ outlined s name code keywords locals with consts := vs.toArray, handlers := xs }, m', ?_, hst, ?_⟩
  · exact (gives_check ho m).bind (hvs.bind ((gives_check hxs m').bind (gives_pure _ m')))
  · have hlen : locals.length = q.locals.size := by
      rw [← hlocals.length_eq, hs.locals.length_eq, Array.length_toList]
    exact
      { name := hname
        kind := (code_ofCode_kind _).symm
        code := hcode.imp fun _ _ hp => hp.mono (fun _ _ h => h) fun _ _ h => ⟨congrArg FnId.id h.1, h.2⟩
        readable := by
          have h := (Code.pieces_render hcode).2
          rw [Code.render_pieces] at h
          have h' := (Code.pieces_render hs.code).2
          rw [Code.render_pieces] at h'
          exact h.trans (h'.symm.trans hs.readable)
        req := rfl
        opt := rfl
        rest := (code_ofCode_rest _).symm
        post := rfl
        keywords := hkeywords
        kwRest := rfl
        block := rfl
        delegate := rfl
        locals := hlocals
        kwRestSlot := rfl
        blockSlot := rfl
        delegateSlot := rfl
        slots := by
          have := hs.slots
          simp only [Code.Sequence.slotCount, outlined, List.size_toArray] at this ⊢
          omega
        consts := hvals
        methodSites := rfl
        constSites := rfl
        handlers := hhandlers
        lines := rfl
        path := rfl }

/-! ## Programs -/

end Program.Loading

end RubyMachine
