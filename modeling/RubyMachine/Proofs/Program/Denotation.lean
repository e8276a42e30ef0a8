import RubyMachine.Program.Basic
import RubyMachine.Proofs.Code.Likeness

/-! What stored literals and sequences stand for, given the meaning of their numbers. Two sequences that one
stored sequence stands for are the same in two numberings (`Sequence.Denotes.alike`). -/

namespace RubyMachine

variable {h h' : Heap Object} {α β γ : Type}

theorem forall₂_comp {R : α → β → Prop} {S : β → γ → Prop} {T : α → γ → Prop} {l : List α} {m : List β} {n : List γ}
    (hl : List.Forall₂ R l m) (hm : List.Forall₂ S m n) (ht : ∀ a b c, R a b → S b c → T a c) : List.Forall₂ T l n := by
  induction hl generalizing n with
  | nil => rw [List.forall₂_nil_left_iff.1 hm]; exact .nil
  | cons hab _ ih =>
    obtain ⟨c, n, hbc, hn, rfl⟩ := List.forall₂_cons_left_iff.1 hm
    exact .cons (ht _ _ _ hab hbc) (ih hn)

theorem exists_of_forall₂ {R : α → β → Prop} {l : List α} {r : List β} (h : List.Forall₂ R l r) :
    ∀ a ∈ l, ∃ b ∈ r, R a b := by
  intro a ha
  obtain ⟨i, hi, rfl⟩ := List.getElem_of_mem ha
  exact ⟨_, List.get_mem r ⟨i, h.length_eq ▸ hi⟩, h.get hi (h.length_eq ▸ hi)⟩

theorem forall₂_getElem? {R : α → β → Prop} {l : List α} {r : List β} (h : List.Forall₂ R l r) {i : Nat} {a : α}
    {b : β} (ha : l[i]? = some a) (hb : r[i]? = some b) : R a b := by
  obtain ⟨hi, rfl⟩ := List.getElem?_eq_some_iff.1 ha
  obtain ⟨hj, rfl⟩ := List.getElem?_eq_some_iff.1 hb
  exact h.get hi hj

namespace Program

/-- A literal stands for a value, when numbers stand for names by `I`. -/
inductive Literal.Denotes (h : Heap Object) (I : UInt32 → Ident → Prop) : Literal → Value → Prop where
  | nil {l : Literal} : l.kind = nilKind → Denotes h I l .nil
  | true {l : Literal} : l.kind = trueKind → Denotes h I l .true
  | false {l : Literal} : l.kind = falseKind → Denotes h I l .false
  | int {l : Literal} {v : Value} : l.kind = intKind → v.isFixnum = Bool.true → l.int = v.toInt → Denotes h I l v
  | float {l : Literal} {v : Value} : l.kind = floatKind → v.isFloat = Bool.true → l.float = v.bits → Denotes h I l v
  | symbol {l : Literal} {v : Value} : l.kind = symbolKind → v.isSymbol = Bool.true → I l.ident v.toSymbol →
    Denotes h I l v
  | string {l : Literal} {v : Value} : l.kind = stringKind → v.isRef = Bool.true →
    h.read v.toRef = .ok (.string l.text) → Denotes h I l v
  | array {l : Literal} {es : Array Value} {v : Value} : l.kind = arrayKind → v.isRef = Bool.true →
    h.read v.toRef = .ok (.array es) → l.elems.length = es.size →
    (∀ (i : Nat) (x : Literal) (w : Value), l.elems[i]? = some x → es[i]? = some w → Denotes h I x w) → Denotes h I l v

/-- A stored sequence stands for a sequence, when numbers stand for names by `I` and for functions by `F`. -/
structure Sequence.Denotes (h : Heap Object) (I : UInt32 → Ident → Prop) (F : UInt32 → FnId → Prop) (s : Sequence)
    (q : Code.Sequence) : Prop where
  name : I s.name q.name
  kind : s.kind = q.kind.code
  code : List.Forall₂ (Code.Piece.Alike (fun i j => I i.id j) fun f g => F f.id g)
    (Code.pieces (s.code.getD #[]).toList) (Code.pieces q.code.toList)
  readable : Code.flaw? q.code.toList = none
  req : s.params.req = q.params.req
  opt : s.params.opt = q.params.opt
  rest : s.params.rest = q.params.rest.code
  post : s.params.post = q.params.post
  keywords : List.Forall₂ (fun k l => I k.name l.name ∧ k.slot = l.slot) (s.params.keywords.getD []) q.params.keywords
  kwRest : s.params.kwRest = q.params.kwRest
  block : s.params.block = q.params.block
  delegate : s.params.delegate = q.params.delegate
  locals : List.Forall₂ I (s.locals.getD []) q.locals.toList
  kwRestSlot : s.kwRestSlot = q.kwRestSlot
  blockSlot : s.blockSlot = q.blockSlot
  delegateSlot : s.delegateSlot = q.delegateSlot
  slots : s.slots = q.slotCount
  consts : List.Forall₂ (Literal.Denotes h I) s.consts q.consts.toList
  methodSites : s.methodSites = q.methodSites
  constSites : s.constSites = q.constSites
  handlers : List.Forall₂ (fun x y => x.kind = y.kind.code ∧ x.start = y.start ∧ x.stop = y.stop ∧ x.dest = y.dest)
    (s.handlers.getD []) q.handlers
  lines : (s.lines.getD []).map (fun l => (⟨l.offset, l.line⟩ : Code.SourceLine)) = q.lines
  path : s.path = q.path

variable {I J : UInt32 → Ident → Prop} {F G : UInt32 → FnId → Prop}

theorem Literal.Denotes.mono {l : Literal} {v : Value} (hl : l.Denotes h I v) (hI : ∀ n i, I n i → J n i) :
    l.Denotes h J v := by
  induction hl with
  | nil hk => exact .nil hk
  | true hk => exact .true hk
  | false hk => exact .false hk
  | int hk hv hn => exact .int hk hv hn
  | float hk hv hb => exact .float hk hv hb
  | symbol hk hv hn => exact .symbol hk hv (hI _ _ hn)
  | string hk hv hr => exact .string hk hv hr
  | array hk hv hr hlen _ ih => exact .array hk hv hr hlen ih

theorem Sequence.Denotes.mono {s : Sequence} {q : Code.Sequence} (hs : s.Denotes h I F q) (hI : ∀ n i, I n i → J n i)
    (hF : ∀ n f, F n f → G n f) : s.Denotes h J G q :=
  { hs with
    name := hI _ _ hs.name
    code := hs.code.imp fun _ _ hp => hp.mono (fun _ _ => hI _ _) fun _ _ => hF _ _
    keywords := hs.keywords.imp fun _ _ hk => ⟨hI _ _ hk.1, hk.2⟩
    locals := hs.locals.imp hI
    consts := hs.consts.imp fun _ _ hl => hl.mono hI }

/-- Values that one literal stands for are alike. -/
theorem Literal.Denotes.alike {K : Ident → Ident → Prop} {l : Literal} {v w : Value} (hv : l.Denotes h I v)
    (hw : l.Denotes h' J w) (hK : ∀ n i j, I n i → J n j → K i j) : v.Alike h h' K w := by
  induction hv generalizing w with
  | nil hk =>
    cases hw with
    | nil => exact .nil
    | _ hk' => exact absurd (hk.symm.trans hk') (by decide)
  | true hk =>
    cases hw with
    | true => exact .true
    | _ hk' => exact absurd (hk.symm.trans hk') (by decide)
  | false hk =>
    cases hw with
    | false => exact .false
    | _ hk' => exact absurd (hk.symm.trans hk') (by decide)
  | int hk hv hn =>
    cases hw with
    | int _ hw hn' => exact .int hv hw (hn.symm.trans hn')
    | _ hk' => exact absurd (hk.symm.trans hk') (by decide)
  | @float l v hk hv hb =>
    cases hw with
    | float _ hw hb' =>
      obtain rfl : v = w := by
        cases v
        cases w
        exact congrArg Value.mk (hb.symm.trans hb')
      exact .float hv
    | _ hk' => exact absurd (hk.symm.trans hk') (by decide)
  | symbol hk hv hn =>
    cases hw with
    | symbol _ hw hn' => exact .symbol hv hw (hK _ _ _ hn hn')
    | _ hk' => exact absurd (hk.symm.trans hk') (by decide)
  | string hk hv hr =>
    cases hw with
    | string _ hw hr' => exact .string hv hw hr hr'
    | _ hk' => exact absurd (hk.symm.trans hk') (by decide)
  | @array l es v hk hv hr hlen _ ih =>
    cases hw with
    | @array _ fs _ _ hw hr' hlen' hes =>
      refine .array hv hw hr hr' (hlen.symm.trans hlen') fun i x y hx hy => ?_
      obtain ⟨e, he⟩ : ∃ e, l.elems[i]? = some e := by
        refine ⟨_, List.getElem?_eq_getElem ?_⟩
        rw [hlen]
        exact (Array.getElem?_eq_some_iff.1 hx).1
      exact ih i e x he hx (hes i e y he hy)
    | _ hk' => exact absurd (hk.symm.trans hk') (by decide)

theorem Sequence.Denotes.alike {K : Ident → Ident → Prop} {H : FnId → FnId → Prop} {s : Sequence}
    {q r : Code.Sequence} (hq : s.Denotes h I F q) (hr : s.Denotes h' J G r) (hK : ∀ n i j, I n i → J n j → K i j)
    (hH : ∀ n f g, F n f → G n g → H f g) : q.Alike h h' K H r where
  name := hK _ _ _ hq.name hr.name
  kind := hq.kind.symm.trans hr.kind
  code := forall₂_comp
    ((hq.code.imp fun _ _ hp => hp.flip (J := fun i j => I j.id i) (G := fun f g => F g.id f) (fun _ _ h => h)
      fun _ _ h => h).flip)
    hr.code fun _ _ _ hp hp' => hp.trans hp' (fun _ _ _ => hK _ _ _) fun _ _ _ => hH _ _ _
  req := hq.req.symm.trans hr.req
  opt := hq.opt.symm.trans hr.opt
  rest := hq.rest.symm.trans hr.rest
  post := hq.post.symm.trans hr.post
  keywords := forall₂_comp hq.keywords.flip hr.keywords fun _ _ _ hk hk' =>
    ⟨hK _ _ _ hk.1 hk'.1, hk.2.symm.trans hk'.2⟩
  kwRest := hq.kwRest.symm.trans hr.kwRest
  block := hq.block.symm.trans hr.block
  delegate := hq.delegate.symm.trans hr.delegate
  locals := forall₂_comp hq.locals.flip hr.locals fun _ _ _ hi hj => hK _ _ _ hi hj
  kwRestSlot := hq.kwRestSlot.symm.trans hr.kwRestSlot
  blockSlot := hq.blockSlot.symm.trans hr.blockSlot
  delegateSlot := hq.delegateSlot.symm.trans hr.delegateSlot
  slots := Int.ofNat.inj (hq.slots.symm.trans hr.slots)
  consts := forall₂_comp hq.consts.flip hr.consts fun _ _ _ hl hl' => hl.alike hl' hK
  methodSites := hq.methodSites.symm.trans hr.methodSites
  constSites := hq.constSites.symm.trans hr.constSites
  handlers := forall₂_comp hq.handlers.flip hr.handlers fun _ _ _ hx hy =>
    ⟨hx.1.symm.trans hy.1, hx.2.1.symm.trans hy.2.1, hx.2.2.1.symm.trans hy.2.2.1, hx.2.2.2.symm.trans hy.2.2.2⟩
  lines := hq.lines.symm.trans hr.lines
  path := hq.path.symm.trans hr.path

end Program

end RubyMachine
