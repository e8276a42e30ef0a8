import RubyMachine.Code.Sequence
import RubyMachine.Heap.Basic
import RubyMachine.Object.Basic
import RubyMachine.Proofs.Code.Pieces

/-! The same code in two numberings: names are related by one relation and functions by another, literals
have the same structure, and everything else is the same. Pieces that are written to code in another
numbering are the pieces of that code (`pieces_render`). -/

namespace RubyMachine.Code

/-- The same piece where names are related by `I` and functions by `F`. -/
inductive Piece.Alike (I : Ident → Ident → Prop) (F : FnId → FnId → Prop) : Piece → Piece → Prop where
  | byte (b : UInt8) : Alike I F (.byte b) (.byte b)
  | ident {i j : Ident} : I i j → Alike I F (.ident i) (.ident j)
  | symbol {v w : Value} : v.isSymbol = true → w.isSymbol = true → I v.toSymbol w.toSymbol →
    Alike I F (.symbol v) (.symbol w)
  | fn {f g : FnId} : f.id ≠ 0 → g.id ≠ 0 → F f g → Alike I F (.fn f) (.fn g)

theorem Piece.Alike.flip {I J : Ident → Ident → Prop} {F G : FnId → FnId → Prop} {p q : Piece} (h : p.Alike I F q)
    (hI : ∀ i j, I i j → J j i) (hF : ∀ f g, F f g → G g f) : q.Alike J G p := by
  cases h with
  | byte b => exact .byte b
  | ident h => exact .ident (hI _ _ h)
  | symbol hv hw h => exact .symbol hw hv (hI _ _ h)
  | fn hf hg h => exact .fn hg hf (hF _ _ h)

theorem Piece.Alike.trans {I J K : Ident → Ident → Prop} {F G H : FnId → FnId → Prop} {p q r : Piece}
    (h : p.Alike I F q) (h' : q.Alike J G r) (hI : ∀ i j k, I i j → J j k → K i k)
    (hF : ∀ f g h, F f g → G g h → H f h) : p.Alike K H r := by
  cases h with
  | byte b => cases h'; exact .byte b
  | ident h =>
    cases h' with
    | ident h' => exact .ident (hI _ _ _ h h')
  | symbol hv hw h =>
    cases h' with
    | symbol _ hx h' => exact .symbol hv hx (hI _ _ _ h h')
  | fn hf hg h =>
    cases h' with
    | fn _ hk h' => exact .fn hf hk (hF _ _ _ h h')

theorem Piece.Alike.mono {I J : Ident → Ident → Prop} {F G : FnId → FnId → Prop} {p q : Piece} (h : p.Alike I F q)
    (hI : ∀ i j, I i j → J i j) (hF : ∀ f g, F f g → G f g) : p.Alike J G q :=
  by
  cases h with
  | byte b => exact .byte b
  | ident h => exact .ident (hI _ _ h)
  | symbol hv hw h => exact .symbol hv hw (hI _ _ h)
  | fn hf hg h => exact .fn hf hg (hF _ _ h)

variable {I : Ident → Ident → Prop} {F : FnId → FnId → Prop}

theorem exists_append_of_forall₂ {α β : Type} {R : α → β → Prop} {l₁ l₂ : List α} {l : List β}
    (h : List.Forall₂ R (l₁ ++ l₂) l) :
    ∃ l₁' l₂', List.Forall₂ R l₁ l₁' ∧ List.Forall₂ R l₂ l₂' ∧ l = l₁' ++ l₂' := by
  induction l₁ generalizing l with
  | nil => exact ⟨[], l, .nil, h, rfl⟩
  | cons a l₁ ih =>
    obtain ⟨b, l, hab, hl, rfl⟩ := List.forall₂_cons_left_iff.1 h
    obtain ⟨l₁', l₂', h₁, h₂, rfl⟩ := ih hl
    exact ⟨b :: l₁', l₂', .cons hab h₁, h₂, rfl⟩

theorem eq_of_alike_bytes {bs : List UInt8} {ps : List Piece} (h : List.Forall₂ (Piece.Alike I F) (bs.map .byte) ps) :
    ps = bs.map .byte := by
  induction bs generalizing ps with
  | nil => exact List.forall₂_nil_left_iff.1 h
  | cons b bs ih =>
    obtain ⟨p, qs, hp, hqs, rfl⟩ := List.forall₂_cons_left_iff.1 h
    cases hp
    rw [ih hqs, List.map_cons]

/-- Renumbered pieces of an operand are the pieces of the operand they make up. -/
theorem operand_pieces_render {k : Operand} {bs : List UInt8} {ps : List Piece} (hb : bs.length = k.width)
    (h : List.Forall₂ (Piece.Alike I F) (k.pieces bs) ps) :
    k.pieces (render ps) = ps ∧ (render ps).length = bs.length := by
  have hbytes : k.pieces bs = bs.map .byte → k.pieces (render ps) = ps ∧ (render ps).length = bs.length := by
    intro he
    obtain rfl := eq_of_alike_bytes (he ▸ h)
    rw [render_bytes]
    exact ⟨he, rfl⟩
  cases k with
  | ident =>
    obtain ⟨n, hn, -⟩ := Bytes.u32At?_eq hb
    rw [Operand.pieces, hn] at h
    obtain ⟨p, qs, hp, hqs, rfl⟩ := List.forall₂_cons_left_iff.1 h
    obtain rfl := List.forall₂_nil_left_iff.1 hqs
    cases hp
    simpa [Operand.pieces, Piece.bytes, Bytes.u32At?_le32] using (Bytes.length_le32 _).trans hb.symm
  | fn =>
    obtain ⟨n, hn, -⟩ := Bytes.u32At?_eq hb
    by_cases hz : n = 0
    · exact hbytes (by rw [Operand.pieces, hn]; exact if_pos hz)
    · have he : Operand.fn.pieces bs = [.fn ⟨n⟩] := by rw [Operand.pieces, hn]; exact if_neg hz
      rw [he] at h
      obtain ⟨p, qs, hp, hqs, rfl⟩ := List.forall₂_cons_left_iff.1 h
      obtain rfl := List.forall₂_nil_left_iff.1 hqs
      cases hp with
      | fn _ hg _ =>
        simpa [Operand.pieces, Piece.bytes, Bytes.u32At?_le32, hg] using (Bytes.length_le32 _).trans hb.symm
  | value =>
    obtain ⟨w, hw, -⟩ := Bytes.u64At?_eq hb
    by_cases hs : (Value.mk w).isSymbol = true
    · have he : Operand.value.pieces bs = [.symbol ⟨w⟩] := by rw [Operand.pieces, hw]; exact if_pos hs
      rw [he] at h
      obtain ⟨p, qs, hp, hqs, rfl⟩ := List.forall₂_cons_left_iff.1 h
      obtain rfl := List.forall₂_nil_left_iff.1 hqs
      cases hp with
      | symbol _ hv _ =>
        simpa [Operand.pieces, Piece.bytes, Bytes.u64At?_le64, hv] using (Bytes.length_le64 _).trans hb.symm
    · exact hbytes (by rw [Operand.pieces, hw]; exact if_neg hs)
  | _ => exact hbytes rfl

theorem operandPieces_render {os : List Operand} {bs : List UInt8} {ps : List Piece} (hb : bs.length = width os)
    (h : List.Forall₂ (Piece.Alike I F) (operandPieces os bs) ps) :
    operandPieces os (render ps) = ps ∧ (render ps).length = bs.length := by
  induction os generalizing bs ps with
  | nil =>
    obtain rfl := List.forall₂_nil_left_iff.1 h
    exact ⟨rfl, hb.symm⟩
  | cons o os ih =>
    have hw : width (o :: os) = o.width + width os := by simp [width]
    obtain ⟨ps, qs, hps, hqs, rfl⟩ := exists_append_of_forall₂ h
    have htake : (bs.take o.width).length = o.width := by simp; omega
    obtain ⟨hp, hlp⟩ := operand_pieces_render htake hps
    obtain ⟨hq, hlq⟩ := ih (by simp; omega) hqs
    rw [htake] at hlp
    rw [operandPieces, render_append, List.take_left' hlp, List.drop_left' hlp, hp, hq, List.length_append, hlp, hlq]
    exact ⟨rfl, by simp; omega⟩

theorem opcode?_congr {b : UInt8} {bs bs' : List UInt8} (h : bs'.length = bs.length) : opcode? b bs' = opcode? b bs := by
  rw [opcode?, opcode?, h]

theorem piecesIn_render {fuel : Nat} (pc : Nat) {bs : List UInt8} {ps : List Piece}
    (h : List.Forall₂ (Piece.Alike I F) (piecesIn fuel bs) ps) : (render ps).length = bs.length ∧
      piecesIn fuel (render ps) = ps ∧ flawIn fuel pc (render ps) = flawIn fuel pc bs := by
  induction fuel generalizing pc bs ps with
  | zero =>
    obtain rfl := eq_of_alike_bytes h
    rw [render_bytes]
    exact ⟨rfl, rfl, rfl⟩
  | succ fuel ih =>
    cases bs with
    | nil =>
      obtain rfl := List.forall₂_nil_left_iff.1 h
      exact ⟨rfl, rfl, rfl⟩
    | cons b bs =>
      cases ho : opcode? b bs with
      | none =>
        have he : piecesIn (fuel + 1) (b :: bs) = (b :: bs).map .byte := by rw [piecesIn, ho]; rfl
        obtain rfl := eq_of_alike_bytes (he ▸ h)
        rw [render_bytes]
        exact ⟨rfl, he, rfl⟩
      | some op =>
        have hw := width_le ho
        rw [piecesIn, ho] at h
        obtain ⟨p, rest, hb, hrest, rfl⟩ := List.forall₂_cons_left_iff.1 h
        obtain ⟨ps, qs, hps, hqs, rfl⟩ := exists_append_of_forall₂ hrest
        cases hb
        obtain ⟨hp, hlp⟩ := operandPieces_render (by simpa using hw) hps
        obtain ⟨hlq, hq, hfq⟩ := ih (pc + op.size) hqs
        rw [List.length_take, Nat.min_eq_left hw] at hlp
        rw [List.length_drop] at hlq
        have hlen : (render ps ++ render qs).length = bs.length := by rw [List.length_append, hlp, hlq]; omega
        have hr : render (Piece.byte b :: (ps ++ qs)) = b :: (render ps ++ render qs) := by simp [Piece.bytes]
        rw [hr, piecesIn, flawIn, flawIn, opcode?_congr hlen, ho, List.length_cons, List.length_cons, hlen]
        simp only [Option.elim_some, List.take_left' hlp, List.drop_left' hlp, hp, hq, hfq, and_self]

/-- Renumbered pieces are the pieces of the code they make up, which can be read as far. -/
theorem pieces_render {bs : List UInt8} {ps : List Piece} (h : List.Forall₂ (Piece.Alike I F) (pieces bs) ps) :
    pieces (render ps) = ps ∧ flaw? (render ps) = flaw? bs := by
  obtain ⟨hl, hp, hf⟩ := piecesIn_render 0 h
  rw [pieces, flaw?, hl]
  exact ⟨hp, hf⟩

theorem length_bytes {p q : Piece} (h : p.Alike I F q) : p.bytes.length = q.bytes.length := by
  cases h <;> rfl

/-- Alike code is equally long. -/
theorem size_of_alike {c c' : Bytes} (h : List.Forall₂ (Piece.Alike I F) (pieces c.toList) (pieces c'.toList)) :
    c.size = c'.size := by
  have hr : ∀ {ps qs}, List.Forall₂ (Piece.Alike I F) ps qs → (render ps).length = (render qs).length := by
    intro ps qs h
    induction h with
    | nil => rfl
    | cons hp _ ih => simp [length_bytes hp, ih]
  simpa [render_pieces] using hr h

/-! ## Literals and sequences -/

end RubyMachine.Code

namespace RubyMachine

/-- A value in each of two heaps: the same immediate value, related names, or strings and arrays with the
same contents. -/
inductive Value.Alike (h h' : Heap Object) (I : Ident → Ident → Prop) : Value → Value → Prop where
  | nil : Alike h h' I .nil .nil
  | true : Alike h h' I .true .true
  | false : Alike h h' I .false .false
  | int {v w : Value} : v.isFixnum = Bool.true → w.isFixnum = Bool.true → v.toInt = w.toInt → Alike h h' I v w
  | float {v : Value} : v.isFloat = Bool.true → Alike h h' I v v
  | symbol {v w : Value} : v.isSymbol = Bool.true → w.isSymbol = Bool.true → I v.toSymbol w.toSymbol → Alike h h' I v w
  | string {v w : Value} {s : String} : v.isRef = Bool.true → w.isRef = Bool.true → h.read v.toRef = .ok (.string s) →
    h'.read w.toRef = .ok (.string s) → Alike h h' I v w
  | array {v w : Value} {es fs : Array Value} : v.isRef = Bool.true → w.isRef = Bool.true →
    h.read v.toRef = .ok (.array es) → h'.read w.toRef = .ok (.array fs) → es.size = fs.size →
    (∀ (i : Nat) (x y : Value), es[i]? = some x → fs[i]? = some y → Alike h h' I x y) → Alike h h' I v w

/-- The values that a value holds as an array, and those that they hold, with the value itself. -/
inductive Heap.Within (h : Heap Object) : Value → Value → Prop where
  | self (v : Value) : Within h v v
  | elem {v w x : Value} {es : Array Value} : v.isRef = true → h.read v.toRef = .ok (.array es) → w ∈ es →
    Within h w x → Within h v x

theorem Heap.Within.eq_of_imm {h : Heap Object} {v w : Value} (hw : h.Within v w) (hv : v.isRef = false) : w = v := by
  cases hw with
  | self => rfl
  | elem hr => rw [hv] at hr; cases hr

/-- The same sequence in two numberings. -/
structure Code.Sequence.Alike (h h' : Heap Object) (I : Ident → Ident → Prop) (F : FnId → FnId → Prop)
    (q r : Code.Sequence) : Prop where
  name : I q.name r.name
  kind : q.kind.code = r.kind.code
  code : List.Forall₂ (Code.Piece.Alike I F) (Code.pieces q.code.toList) (Code.pieces r.code.toList)
  req : q.params.req = r.params.req
  opt : q.params.opt = r.params.opt
  rest : q.params.rest.code = r.params.rest.code
  post : q.params.post = r.params.post
  keywords : List.Forall₂ (fun k l => I k.name l.name ∧ k.slot = l.slot) q.params.keywords r.params.keywords
  kwRest : q.params.kwRest = r.params.kwRest
  block : q.params.block = r.params.block
  delegate : q.params.delegate = r.params.delegate
  locals : List.Forall₂ I q.locals.toList r.locals.toList
  kwRestSlot : q.kwRestSlot = r.kwRestSlot
  blockSlot : q.blockSlot = r.blockSlot
  delegateSlot : q.delegateSlot = r.delegateSlot
  slots : q.slotCount = r.slotCount
  consts : List.Forall₂ (Value.Alike h h' I) q.consts.toList r.consts.toList
  methodSites : q.methodSites = r.methodSites
  constSites : q.constSites = r.constSites
  handlers : List.Forall₂ (fun x y => x.kind.code = y.kind.code ∧ x.start = y.start ∧ x.stop = y.stop ∧ x.dest = y.dest)
    q.handlers r.handlers
  lines : q.lines = r.lines
  path : q.path = r.path

/-- The names in a sequence are among those of which `P` holds, and the functions among those of which `Q` holds. -/
structure Code.Sequence.Over (h : Heap Object) (P : Ident → Prop) (Q : FnId → Prop) (q : Code.Sequence) : Prop where
  name : P q.name
  idents : ∀ i, Code.Piece.ident i ∈ Code.pieces q.code.toList → P i
  symbols : ∀ v, Code.Piece.symbol v ∈ Code.pieces q.code.toList → P v.toSymbol
  fns : ∀ f, Code.Piece.fn f ∈ Code.pieces q.code.toList → Q f
  keywords : ∀ k ∈ q.params.keywords, P k.name
  locals : ∀ i ∈ q.locals.toList, P i
  consts : ∀ v ∈ q.consts.toList, ∀ w, h.Within v w → w.isSymbol = true → P w.toSymbol

section Over

variable {h h' : Heap Object} {I J : Ident → Ident → Prop} {F G : FnId → FnId → Prop} {P : Ident → Prop} {Q : FnId → Prop}

theorem Value.Alike.imp {v w : Value} (ha : v.Alike h h' I w)
    (hv : ∀ x, h.Within v x → x.isSymbol = Bool.true → P x.toSymbol) (hI : ∀ i j, P i → I i j → J i j) :
    v.Alike h h' J w := by
  induction ha with
  | nil => exact .nil
  | true => exact .true
  | false => exact .false
  | int hi hj he => exact .int hi hj he
  | float hf => exact .float hf
  | symbol hs hs' hij => exact .symbol hs hs' (hI _ _ (hv _ (.self _) hs) hij)
  | string hr hr' ho ho' => exact .string hr hr' ho ho'
  | array hr hr' ho ho' hlen _ ih =>
    exact .array hr hr' ho ho' hlen fun i x y hx hy =>
      ih i x y hx hy fun z hz => hv z (.elem hr ho (Array.mem_of_getElem? hx) hz)

/-- Only the names and functions in the first sequence need to be related. -/
theorem Code.Sequence.Alike.imp {q r : Code.Sequence} (hq : q.Alike h h' I F r) (ho : q.Over h P Q)
    (hI : ∀ i j, P i → I i j → J i j) (hF : ∀ f g, Q f → F f g → G f g) : q.Alike h h' J G r :=
  have among {α β : Type} {R : α → β → Prop} {l : List α} {l' : List β} (hl : List.Forall₂ R l l') :
      List.Forall₂ (fun a b => a ∈ l ∧ R a b) l l' := (List.forall₂_and_left _ _).2 ⟨fun _ h => h, hl⟩
  { hq with
    name := hI _ _ ho.name hq.name
    code := (among hq.code).imp fun p p' hp => by
      obtain ⟨hm, hp⟩ := hp
      cases hp with
      | byte b => exact .byte b
      | ident h => exact .ident (hI _ _ (ho.idents _ hm) h)
      | symbol hv hw h => exact .symbol hv hw (hI _ _ (ho.symbols _ hm) h)
      | fn hf hg h => exact .fn hf hg (hF _ _ (ho.fns _ hm) h)
    keywords := (among hq.keywords).imp fun _ _ hk => ⟨hI _ _ (ho.keywords _ hk.1) hk.2.1, hk.2.2⟩
    locals := (among hq.locals).imp fun _ _ hi => hI _ _ (ho.locals _ hi.1) hi.2
    consts := (among hq.consts).imp fun _ _ hv => hv.2.imp (ho.consts _ hv.1) hI }

end Over

end RubyMachine
