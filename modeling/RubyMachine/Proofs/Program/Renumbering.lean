import Mathlib.Logic.Relator
import RubyMachine.Proofs.Program.Nesting
import RubyMachine.Proofs.Program.RoundTrip

/-! A captured program does not depend on the numbers that a machine gives to names and functions. Two
captures that go on side by side meet corresponding names and functions in the same order, so these get the
same numbers in the two programs. -/

namespace RubyMachine

namespace Machine

/-- Numbers of two machines that stand for the same name. -/
def SameName (m m' : Machine) (i j : Ident) : Prop := ∃ name, m.idents.Has i name ∧ m'.idents.Has j name

/-- Functions of two machines that correspond one-to-one. They have the same code, the names in it being the same
names and the functions in it corresponding ones. -/
structure Corresponds (m m' : Machine) (F : FnId → FnId → Prop) : Prop where
  unique : Relator.BiUnique F
  code : ∀ f g, F f g → ∃ q r, m.functions.sequence f = .ok q ∧ m'.functions.sequence g = .ok r ∧
    q.Alike m.heap m'.heap (m.SameName m') F r

end Machine

namespace Program

/-! ## Numberings side by side -/

/-- Numberings of two machines that number corresponding names and functions in the same way. -/
structure Numbering.Twin (m m' : Machine) (F : FnId → FnId → Prop) (s s' : Numbering) : Prop where
  idents : List.Forall₂ (m.SameName m') s.idents.toList s'.idents.toList
  fns : List.Forall₂ F s.fns.toList s'.fns.toList
  left : s.refused = none
  right : s'.refused = none

namespace Capture

section Lists

variable {α β : Type} {R : α → β → Prop} {l : Array α} {l' : Array β} {a : α} {b : β}

theorem findIdx?_congr [DecidableEq α] [DecidableEq β] (hu : Relator.BiUnique R)
    (hl : List.Forall₂ R l.toList l'.toList) (hab : R a b) : l.findIdx? (· == a) = l'.findIdx? (· == b) := by
  obtain ⟨xs⟩ := l
  obtain ⟨ys⟩ := l'
  rw [List.findIdx?_toArray, List.findIdx?_toArray]
  change List.Forall₂ R xs ys at hl
  induction hl with
  | nil => rfl
  | @cons x y xs ys hxy _ ih =>
    have he : (x == a) = (y == b) := by
      rw [Bool.eq_iff_iff, beq_iff_eq, beq_iff_eq]
      exact ⟨fun h => hu.2 hxy (h ▸ hab), fun h => hu.1 hxy (h ▸ hab)⟩
    rw [List.findIdx?_cons, List.findIdx?_cons, he, ih]

theorem size_eq (hl : List.Forall₂ R l.toList l'.toList) : l.size = l'.size := by
  simpa using hl.length_eq

theorem forall₂_push (hl : List.Forall₂ R l.toList l'.toList) (hab : R a b) :
    List.Forall₂ R (l.push a).toList (l'.push b).toList := by
  rw [Array.toList_push, Array.toList_push]
  exact List.rel_append hl (.cons hab .nil)

end Lists

variable {α β : Type} {m m' : Machine} {F : FnId → FnId → Prop} {s s' t t' : Numbering}

/-- Two parts of the work, done side by side, give the same result. -/
def Joint (m m' : Machine) (F : FnId → FnId → Prop) (x y : Capture α) (s s' : Numbering) : Prop :=
  ∃ a t t', Gives x s a t ∧ Gives y s' a t' ∧ Numbering.Twin m m' F t t'

theorem joint_pure (hs : Numbering.Twin m m' F s s') (a : α) : Joint m m' F (pure a) (pure a) s s' :=
  ⟨a, s, s', gives_pure.2 ⟨rfl, rfl⟩, gives_pure.2 ⟨rfl, rfl⟩, hs⟩

theorem Joint.bind {x y : Capture α} {f g : α → Capture β} (h : Joint m m' F x y s s')
    (hf : ∀ a t t', Numbering.Twin m m' F t t' → Joint m m' F (f a) (g a) t t') : Joint m m' F (x >>= f) (y >>= g) s s' := by
  obtain ⟨a, t, t', hx, hy, ht⟩ := h
  obtain ⟨b, u, u', hf, hg, hu⟩ := hf a t t' ht
  exact ⟨b, u, u', gives_bind.2 ⟨a, t, hx, hf⟩, gives_bind.2 ⟨a, t', hy, hg⟩, hu⟩

theorem Joint.map {x y : Capture α} (h : Joint m m' F x y s s') (f : α → β) : Joint m m' F (f <$> x) (f <$> y) s s' := by
  obtain ⟨a, t, t', hx, hy, ht⟩ := h
  exact ⟨f a, t, t', gives_map.2 ⟨a, hx, rfl⟩, gives_map.2 ⟨a, hy, rfl⟩, ht⟩

theorem joint_mapM {γ : Type} {f : β → Capture α} {g : γ → Capture α} {l : List β} {l' : List γ}
    (hl : List.Forall₂ (fun b c => ∀ s s', Numbering.Twin m m' F s s' → Joint m m' F (f b) (g c) s s') l l')
    (hs : Numbering.Twin m m' F s s') : Joint m m' F (l.mapM f) (l'.mapM g) s s' := by
  induction hl generalizing s s' with
  | nil => exact joint_pure hs []
  | cons hbc _ ih =>
    rw [List.mapM_cons, List.mapM_cons]
    exact (hbc s s' hs).bind fun a t t' ht => (ih ht).bind fun as u u' hu => joint_pure hu (a :: as)

/-! ## Names and functions -/

theorem joint_ident (hu : Relator.BiUnique (m.SameName m')) {i j : Ident} (hij : m.SameName m' i j)
    (hs : Numbering.Twin m m' F s s') : Joint m m' F (ident i) (ident j) s s' := by
  have hfind := findIdx?_congr hu hs.idents hij
  have hsize := size_eq hs.idents
  simp only [Joint, ident, gives_modifyGet, hfind, hsize]
  cases s'.idents.findIdx? (· == j) with
  | some k => exact ⟨_, s, s', rfl, rfl, hs⟩
  | none => exact ⟨_, _, _, rfl, rfl, { hs with idents := forall₂_push hs.idents hij }⟩

theorem joint_fn (hF : m.Corresponds m' F) {f g : FnId} (hfg : F f g) (hs : Numbering.Twin m m' F s s') :
    Joint m m' F (fn m f) (fn m' g) s s' := by
  have hfind := findIdx?_congr hF.unique hs.fns hfg
  have hsize := size_eq hs.fns
  obtain ⟨q, r, hq, hr, -⟩ := hF.code f g hfg
  have hf := isBytecode_iff.2 ⟨q, hq⟩
  have hg := isBytecode_iff.2 ⟨r, hr⟩
  simp only [Joint, fn, gives_modifyGet, hfind, hsize, hf, hg, if_true]
  cases s'.fns.findIdx? (· == g) with
  | some k => exact ⟨_, s, s', rfl, rfl, hs⟩
  | none => exact ⟨_, _, _, rfl, rfl, { hs with fns := forall₂_push hs.fns hfg }⟩

/-! ## Literals -/

theorem joint_literal (hu : Relator.BiUnique (m.SameName m')) {v w : Value} (ha : v.Alike m.heap m'.heap (m.SameName m') w)
    {n n' : Nat} (hn : m.heap.Shallow (n + 1) v) (hn' : m'.heap.Shallow (n' + 1) w) (hs : Numbering.Twin m m' F s s') :
    Joint m m' F (literal m (n + 1) v) (literal m' (n' + 1) w) s s' := by
  induction ha generalizing n n' s s' with
  | nil =>
    rw [literal_nil, literal_nil]
    exact joint_pure hs _
  | true =>
    rw [literal_true, literal_true]
    exact joint_pure hs _
  | false =>
    rw [literal_false, literal_false]
    exact joint_pure hs _
  | int hv hw he =>
    rw [literal_int hv, literal_int hw, he]
    exact joint_pure hs _
  | float hv =>
    rw [literal_float hv, literal_float hv]
    exact joint_pure hs _
  | symbol hv hw hi =>
    rw [literal_symbol hv, literal_symbol hw]
    exact (joint_ident hu hi hs).bind fun k t t' ht => joint_pure ht _
  | string hv hw hr hr' =>
    rw [literal_ref hv, literal_ref hw, hr, hr']
    exact joint_pure hs _
  | @array v w es fs hv hw hr hr' hlen hall ih =>
    have hrel : List.Forall₂ (fun x y => ∀ s s', Numbering.Twin m m' F s s' →
        Joint m m' F (literal m n x) (literal m' n' y) s s') es.toList fs.toList := by
      refine List.forall₂_iff_get.2 ⟨by simpa using hlen, fun i hi hi' s s' hs => ?_⟩
      have hx := hn _ ⟨hv, es, hr, Array.getElem_mem hi⟩
      have hy := hn' _ ⟨hw, fs, hr', Array.getElem_mem hi'⟩
      obtain ⟨k, rfl⟩ := hx.eq_succ
      obtain ⟨k', rfl⟩ := hy.eq_succ
      exact ih i _ _ (Array.getElem?_eq_getElem hi) (Array.getElem?_eq_getElem hi') hx hy hs
    rw [literal_ref hv, literal_ref hw, hr, hr']
    exact (joint_mapM hrel hs).bind fun ls t t' ht => joint_pure ht _

/-! ## Code -/

variable {c c' : Bytes}

theorem joint_piece (hu : Relator.BiUnique (m.SameName m')) (hF : m.Corresponds m' F) {p p' : Code.Piece}
    (hp : p.Alike (m.SameName m') F p') (hs : Numbering.Twin m m' F s s') :
    Joint m m' F ((relocator m).piece p) ((relocator m').piece p') s s' := by
  have renamed {i j : Ident} (hij : m.SameName m' i j) : Joint m m' F (do return (⟨← ident i⟩ : Ident))
      (do return ⟨← ident j⟩) s s' := (joint_ident hu hij hs).bind fun k t t' ht => joint_pure ht _
  cases hp with
  | byte b => exact joint_pure hs _
  | ident hij => exact (renamed hij).map Code.Piece.ident
  | symbol _ _ hij => exact (renamed hij).map fun i => Code.Piece.symbol (.ofSymbol i)
  | fn _ _ hfg => exact ((joint_fn hF hfg hs).bind fun k t t' ht => joint_pure ht _).map Code.Piece.fn

theorem flaw?_eq {I : Ident → Ident → Prop} (h : List.Forall₂ (Code.Piece.Alike I F) (Code.pieces c.toList)
    (Code.pieces c'.toList)) : Code.flaw? c'.toList = Code.flaw? c.toList := by
  have hf := (Code.pieces_render h).2
  rwa [Code.render_pieces] at hf

theorem joint_apply (hu : Relator.BiUnique (m.SameName m')) (hF : m.Corresponds m' F)
    (hc : List.Forall₂ (Code.Piece.Alike (m.SameName m') F) (Code.pieces c.toList) (Code.pieces c'.toList))
    (hs : Numbering.Twin m m' F s s') : Joint m m' F ((relocator m).apply c) ((relocator m').apply c') s s' := by
  rw [Code.Relocator.apply_eq, Code.Relocator.apply_eq, flaw?_eq hc]
  exact (joint_mapM (hc.imp fun _ _ hp _ _ hs => joint_piece hu hF hp hs) hs).map _

/-! ## Sequences -/

theorem stored_congr {h h' : Heap Object} {I : Ident → Ident → Prop} {q r : Code.Sequence} (hq : q.Alike h h' I F r)
    (code : Bytes) (name : UInt32) (keywords : List Keyword) (locals : List UInt32) (consts : List Literal) :
    stored q code name keywords locals consts = stored r code name keywords locals consts := by
  have hhandlers : q.handlers.map (fun x => (⟨x.kind.code, x.start, x.stop, x.dest⟩ : Handler)) =
      r.handlers.map fun x => ⟨x.kind.code, x.start, x.stop, x.dest⟩ := by
    rw [← List.forall₂_eq_eq_eq, List.forall₂_map_left_iff, List.forall₂_map_right_iff]
    exact hq.handlers.imp fun x y hxy => by rw [hxy.1, hxy.2.1, hxy.2.2.1, hxy.2.2.2]
  simp only [stored, hhandlers, hq.kind, hq.req, hq.opt, hq.rest, hq.post, hq.kwRest, hq.block, hq.delegate,
    hq.kwRestSlot, hq.blockSlot, hq.delegateSlot, hq.slots, hq.methodSites, hq.constSites, hq.lines, hq.path]

theorem shallow_depth {v : Value} (hv : Acc m.heap.Elem v) : m.heap.Shallow (depth m) v :=
  (Heap.shallow_of_acc hv).mono (Nat.le_succ _)

theorem joint_sequence (hu : Relator.BiUnique (m.SameName m')) (hF : m.Corresponds m' F) {q r : Code.Sequence}
    (hq : q.Alike m.heap m'.heap (m.SameName m') F r) (hr : Code.flaw? q.code.toList = none)
    (hs : Numbering.Twin m m' F s s') : Joint m m' F (sequence m q) (sequence m' r) s s' := by
  obtain ⟨⟨code, stuck⟩, s₁, s₁', hcode, hcode', hs₁⟩ := joint_apply hu hF hq.code hs
  obtain rfl : stuck = none := by
    rw [Code.Relocator.apply_eq] at hcode
    obtain ⟨ps, -, he⟩ := gives_map.1 hcode
    exact (Prod.mk.inj he).2.symm.trans hr
  obtain ⟨name, s₂, s₂', hname, hname', hs₂⟩ := joint_ident hu hq.name hs₁
  obtain ⟨keywords, s₃, s₃', hkeywords, hkeywords', hs₃⟩ := joint_mapM (f := keyword) (g := keyword)
    (hq.keywords.imp fun k l hk s s' hs => by
      unfold keyword
      rw [hk.2]
      exact (joint_ident hu hk.1 hs).bind fun n t t' ht => joint_pure ht _) hs₂
  obtain ⟨locals, s₄, s₄', hlocals, hlocals', hs₄⟩ := joint_mapM (f := ident) (g := ident)
    (hq.locals.imp fun _ _ hij _ _ hs => joint_ident hu hij hs) hs₃
  obtain ⟨consts, s₅, s₅', hconsts, hconsts', hs₅⟩ := joint_mapM (f := literal m (depth m)) (g := literal m' (depth m'))
    (hq.consts.imp fun v w hvw s s' hs => joint_literal hu hvw (shallow_depth hvw.acc)
      (shallow_depth (hvw.flip (J := fun j i => m.SameName m' i j) fun _ _ h => h).acc) hs) hs₄
  exact ⟨_, s₅, s₅',
    gives_sequence_iff.2 ⟨code, name, keywords, locals, consts, s₁, s₂, s₃, s₄, hcode, hname, hkeywords, hlocals, hconsts, rfl⟩,
    gives_sequence_iff.2 ⟨code, name, keywords, locals, consts, s₁', s₂', s₃', s₄', hcode', hname', hkeywords', hlocals', hconsts',
      stored_congr hq ..⟩, hs₅⟩

theorem gives_sequences_done {fuel done : Nat} (h : s.fns[done]? = none) : Gives (sequences m fuel done) s [] s := by
  cases fuel with
  | zero => exact gives_pure.2 ⟨rfl, rfl⟩
  | succ fuel => exact gives_sequences_succ.2 (.inl ⟨.inr h, rfl, rfl⟩)

theorem getElem?_twin {α β : Type} {R : α → β → Prop} {l : Array α} {l' : Array β} (hl : List.Forall₂ R l.toList l'.toList)
    {i : Nat} {a : α} (ha : l[i]? = some a) : ∃ b, l'[i]? = some b ∧ R a b := by
  obtain ⟨hi, rfl⟩ := Array.getElem?_eq_some_iff.1 ha
  have hi' : i < l'.size := size_eq hl ▸ hi
  exact ⟨l'[i], Array.getElem?_eq_getElem hi', hl.get hi hi'⟩

theorem joint_done {fuel fuel' done : Nat} (hf : s.fns[done]? = none) (hs : Numbering.Twin m m' F s s') :
    Joint m m' F (sequences m fuel done) (sequences m' fuel' done) s s' := by
  have hg : s'.fns[done]? = none := by
    rw [Array.getElem?_eq_none_iff, ← size_eq hs.fns]
    exact Array.getElem?_eq_none_iff.1 hf
  exact ⟨[], s, s', gives_sequences_done hf, gives_sequences_done hg, hs⟩

/-- The two captures have fuel of their own, enough for the functions of each machine. -/
theorem joint_sequences (hu : Relator.BiUnique (m.SameName m')) (hF : m.Corresponds m' F)
    (hr : ∀ f g q, F f g → m.functions.sequence f = .ok q → Code.flaw? q.code.toList = none) {fuel fuel' done : Nat}
    (hfuel : m.functions.size ≤ fuel + done) (hfuel' : m'.functions.size ≤ fuel' + done)
    (hp : s.Proper m fun f => ∃ g, F f g) (hp' : s'.Proper m' fun g => ∃ f, F f g) (hs : Numbering.Twin m m' F s s') :
    Joint m m' F (sequences m fuel done) (sequences m' fuel' done) s s' := by
  have hle := hp.length_fns.1
  have hle' := hp'.length_fns.1
  have hsize := size_eq hs.fns
  induction fuel generalizing fuel' done s s' with
  | zero => exact joint_done (Array.getElem?_eq_none (by omega)) hs
  | succ fuel ih =>
    cases hf : s.fns[done]? with
    | none => exact joint_done hf hs
    | some f =>
      obtain ⟨g, hg, hfg⟩ := getElem?_twin hs.fns hf
      have hlt := (Array.getElem?_eq_some_iff.1 hf).1
      obtain ⟨fuel', rfl⟩ := Nat.exists_eq_succ_of_ne_zero (by omega : fuel' ≠ 0)
      obtain ⟨q, r, hq, hr', hqr⟩ := hF.code f g hfg
      obtain ⟨a, t, t', ha, ha', ht⟩ := joint_sequence hu hF hqr (hr f g q hfg hq) hs
      have hrefer : ∀ x, Machine.Refers q x → ∃ y, F x y := fun x hx => by
        obtain ⟨p, -, hp⟩ := exists_of_forall₂ hqr.code _ hx
        cases hp with
        | fn _ _ h => exact ⟨_, h⟩
      have hrefer' : ∀ y, Machine.Refers r y → ∃ x, F x y := fun y hy => by
        obtain ⟨p, -, hp⟩ := exists_of_forall₂ hqr.code.flip _ hy
        cases hp with
        | fn _ _ h => exact ⟨_, h⟩
      have hpt := (gives_sequence hrefer hp ha).2.1
      have hpt' := (gives_sequence hrefer' hp' ha').2.1
      obtain ⟨rest, u, u', hrest, hrest', hu'⟩ := ih
        (by omega : m.functions.size ≤ fuel + (done + 1)) (by omega : m'.functions.size ≤ fuel' + (done + 1)) hpt hpt' ht
        hpt.length_fns.1 hpt'.length_fns.1 (size_eq ht.fns)
      exact ⟨a :: rest, u, u',
        gives_sequences_succ.2 (.inr ⟨hs.left, f, q, a, t, rest, hf, hq, ha, hrest, rfl⟩),
        gives_sequences_succ.2 (.inr ⟨hs.right, g, r, a, t', rest, hg, hr', ha', hrest', rfl⟩), hu'⟩

end Capture

/-! ## Programs -/

variable {m m' : Machine} {F : FnId → FnId → Prop} {entry entry' : FnId} {u : Program}

theorem ofNumbering_congr {t t' : Numbering} (ht : Numbering.Twin m m' F t t') (n : UInt32) (rs : List Sequence) :
    ofNumbering m n rs t = ofNumbering m' n rs t' := by
  have hnames : t.idents.toList.map m.idents.name = t'.idents.toList.map m'.idents.name := by
    rw [← List.forall₂_eq_eq_eq, List.forall₂_map_left_iff, List.forall₂_map_right_iff]
    refine ht.idents.imp fun i j hij => ?_
    obtain ⟨name, hi, hj⟩ := hij
    rw [hi.name_eq, hj.name_eq]
  rw [ofNumbering, ofNumbering, hnames]

theorem sameName_unique (hm : m.idents.Proper) (hm' : m'.idents.Proper) : Relator.BiUnique (m.SameName m') := by
  constructor
  · rintro i j k ⟨name, hi, hk⟩ ⟨name', hj, hk'⟩
    rw [← hk.name_eq, hk'.name_eq] at hi
    exact hm.eq_of_has hi hj
  · rintro i j k ⟨name, hi, hj⟩ ⟨name', hi', hk⟩
    rw [← hi.name_eq, hi'.name_eq] at hj
    exact hm'.eq_of_has hj hk

/-- Captured from corresponding functions that can be read, programs are the same. -/
theorem capture_both (hm : m.idents.Proper) (hm' : m'.idents.Proper) (hF : m.Corresponds m' F) (he : F entry entry')
    (hr : ∀ f g q, F f g → m.functions.sequence f = .ok q → Code.flaw? q.code.toList = none) :
    ∃ u, (capture m entry).run = .ok (.ok u) ∧ (capture m' entry').run = .ok (.ok u) := by
  have hu := sameName_unique hm hm'
  have hempty : Numbering.Twin m m' F {} {} := ⟨.cons ⟨"", hm.first, hm'.first⟩ .nil, .nil, rfl, rfl⟩
  obtain ⟨n, s, s', hn, hn', hs⟩ := Capture.joint_fn hF he hempty
  have hp : s.Proper m fun f => ∃ g, F f g :=
    (Capture.gives_fn ⟨by simp, by simp, rfl, fun f hf => by simp at hf⟩ ⟨entry', he⟩ hn).2.1
  have hp' : s'.Proper m' fun g => ∃ f, F f g :=
    (Capture.gives_fn ⟨by simp, by simp, rfl, fun f hf => by simp at hf⟩ ⟨entry, he⟩ hn').2.1
  obtain ⟨rs, t, t', hrs, hrs', ht⟩ := Capture.joint_sequences hu hF hr (Nat.le_refl (m.functions.size + 0))
    (Nat.le_refl (m'.functions.size + 0)) hp hp' hs
  exact ⟨ofNumbering m n rs t, capture_eq_ok.2 ⟨n, rs, s, t, hn, hrs, ht.left, rfl⟩,
    capture_eq_ok.2 ⟨n, rs, s', t', hn', hrs', ht.right, ofNumbering_congr ht n rs⟩⟩

/-- Code that was captured can be read. -/
theorem readable_of_capture (hu : (capture m entry).run = .ok (.ok u)) {f : FnId} {q : Code.Sequence}
    (hf : m.Reaches entry f) (hq : m.functions.sequence f = .ok q) : Code.flaw? q.code.toList = none := by
  obtain ⟨t, rs, -, hfirst, -, hrs⟩ := captured hu
  obtain ⟨r, -, q', hq', hd⟩ := exists_of_forall₂ hrs f
    (Array.mem_toList_iff.2 (mem_of_reaches (Array.mem_of_getElem? hfirst) hrs hf))
  cases hq.symm.trans hq'
  exact hd.readable

/-- What a function leads to corresponds to what the corresponding one leads to. -/
theorem reaches_twin (hF : m.Corresponds m' F) (he : F entry entry') {f : FnId} (hf : m.Reaches entry f) :
    ∃ g, F f g ∧ m'.Reaches entry' g := by
  induction hf with
  | entry => exact ⟨entry', he, .entry⟩
  | refer _ hq hx ih =>
    obtain ⟨g, hfg, hg⟩ := ih
    obtain ⟨q, r, hq', hr, hqr⟩ := hF.code _ _ hfg
    cases hq.symm.trans hq'
    obtain ⟨p, hmem, hp⟩ := exists_of_forall₂ hqr.code _ hx
    cases hp with
    | fn _ _ h => exact ⟨_, h, .refer hg hr hmem⟩

/-- Only what the entry leads to needs to correspond. -/
theorem corresponds_reached (hF : m.Corresponds m' F) :
    m.Corresponds m' fun f g => m.Reaches entry f ∧ F f g where
  unique := ⟨fun _ _ _ h h' => hF.unique.1 h.2 h'.2, fun _ _ _ h h' => hF.unique.2 h.2 h'.2⟩
  code f g h := by
    obtain ⟨q, r, hq, hr, hqr⟩ := hF.code f g h.2
    have hover : q.Over m.heap (fun _ => True) (m.Reaches entry) :=
      ⟨trivial, fun _ _ => trivial, fun _ _ => trivial, fun x hx => .refer h.1 hq hx, fun _ _ => trivial,
        fun _ _ => trivial, fun _ _ _ _ _ => trivial⟩
    exact ⟨q, r, hq, hr, hqr.imp hover (fun _ _ _ h => h) fun _ _ h h' => ⟨h, h'⟩⟩

theorem capture_iff (hm : m.idents.Proper) (hm' : m'.idents.Proper) (hF : m.Corresponds m' F) (he : F entry entry')
    (u : Program) : (capture m entry).run = .ok (.ok u) ↔ (capture m' entry').run = .ok (.ok u) := by
  have both (hr : ∀ f q, m.Reaches entry f → m.functions.sequence f = .ok q → Code.flaw? q.code.toList = none) :
      ∃ u, (capture m entry).run = .ok (.ok u) ∧ (capture m' entry').run = .ok (.ok u) :=
    capture_both hm hm' (corresponds_reached hF) ⟨.entry, he⟩ fun f _ q h hq => hr f q h.1 hq
  constructor
  · intro h
    obtain ⟨v, hv, hv'⟩ := both fun f q hf hq => readable_of_capture h hf hq
    cases h.symm.trans hv
    exact hv'
  · intro h
    obtain ⟨v, hv, hv'⟩ := both fun f q hf hq => by
      obtain ⟨g, hfg, hg⟩ := reaches_twin hF he hf
      obtain ⟨q', r, hq', hr, hqr⟩ := hF.code f g hfg
      cases hq.symm.trans hq'
      exact (Capture.flaw?_eq hqr.code).symm.trans (readable_of_capture h hg hr)
    cases h.symm.trans hv'
    exact hv

theorem zip_unique {α β : Type} {l : List α} {l' : List β} (hl : l.Nodup) (hl' : l'.Nodup) :
    Relator.BiUnique fun a b => (a, b) ∈ l.zip l' := by
  have index {a : α} {b : β} (h : (a, b) ∈ l.zip l') : ∃ i : Nat, l[i]? = some a ∧ l'[i]? = some b := by
    obtain ⟨i, hi⟩ := List.mem_iff_getElem?.1 h
    exact ⟨i, List.getElem?_zip_eq_some.1 hi⟩
  constructor
  · intro a b c h h'
    obtain ⟨i, hi, hc⟩ := index h
    obtain ⟨j, hj, hc'⟩ := index h'
    obtain rfl := (List.getElem?_inj (List.getElem?_eq_some_iff.1 hc).1 hl').1 (hc.trans hc'.symm)
    exact Option.some.inj (hi.symm.trans hj)
  · intro a b c h h'
    obtain ⟨i, hi, hb⟩ := index h
    obtain ⟨j, hj, hc⟩ := index h'
    obtain rfl := (List.getElem?_inj (List.getElem?_eq_some_iff.1 hi).1 hl).1 (hi.trans hj.symm)
    exact Option.some.inj (hb.symm.trans hc)

theorem nodup_nextFns {there n : Nat} (h : there + n < 2 ^ 32) : (nextFns there n).Nodup := by
  refine List.Nodup.map_on (fun i hi j hj he => ?_) List.nodup_range
  have hi := List.mem_range.1 hi
  have hj := List.mem_range.1 hj
  have hn {k : Nat} (hk : k < n) : (UInt32.ofNat (there + k + 1)).toNat = there + k + 1 :=
    UInt32.toNat_ofNat_of_lt' (by rw [UInt32.size]; omega)
  have := congrArg (fun f => f.id.toNat) he
  simp only [hn hi, hn hj] at this
  omega

/-- A program that was captured and loaded is captured again as it was. -/
theorem capture_loaded {m₂ : Machine} (hm : m.Arises) (hm₂ : m₂.Arises) (hu : (capture m entry).run = .ok (.ok u))
    (hq : ∀ f q, m.Reaches entry f → m.functions.sequence f = .ok q →
      Portable m q ∧ q.Over m.heap (fun i => m.idents.Has i (m.idents.name i)) fun _ => True)
    (hfits : u.Fits m₂) : ∃ first rest m', u.loadAll m₂ = .ok (.ok (first :: rest)) m' ∧
      (capture m' first).run = .ok (.ok u) := by
  obtain ⟨fns, m', hload, hhead, hnodup, hreach, hlen, -, hcopied⟩ :=
    loadAll_capture hm hm₂ hu (fun f q hf hfq => (hq f q hf hfq).1) hfits
  have hm' : m'.Arises := after_of_ok hload ▸ hm₂.loadAll u
  have hroom := hfits.functions
  rw [hlen] at hroom
  have hF : m.Corresponds m' fun a b => (a, b) ∈ fns.zip (nextFns m₂.functions.size fns.length) := by
    refine ⟨zip_unique hnodup (nodup_nextFns hroom), fun f g hfg => ?_⟩
    obtain ⟨q, r, hfq, hgr, hqr⟩ := (List.forall₂_iff_zip.1 hcopied).2 hfg
    have hover := (hq f q ((hreach f).1 (List.of_mem_zip hfg).1) hfq).2
    exact ⟨q, r, hfq, hgr, hqr.imp hover (fun i j hi hj => ⟨_, hi, hj⟩) fun _ _ _ h => h⟩
  cases fns with
  | nil => cases hhead
  | cons f fns =>
    obtain rfl := Option.some.inj hhead
    have hnext : nextFns m₂.functions.size (f :: fns).length = ⟨UInt32.ofNat (m₂.functions.size + 1)⟩ ::
        (nextFns m₂.functions.size (f :: fns).length).tail := by
      simp [nextFns, List.range_succ_eq_map]
    rw [hnext] at hload
    refine ⟨_, _, m', hload, ?_⟩
    refine (capture_iff hm.sound.idents hm'.sound.idents hF ?_ u).1 hu
    rw [hnext]
    exact List.mem_cons_self

/-- What is captured does not depend on numbers: corresponding functions give the same program, and do give one when
all of their code can be read; a program that was loaded is captured again as it was. -/
theorem capture_renumbered :
    (∀ (m m' : Machine) (F : FnId → FnId → Prop) (entry entry' : FnId), m.Arises → m'.Arises → m.Corresponds m' F →
      F entry entry' → (∀ u, (capture m entry).run = .ok (.ok u) ↔ (capture m' entry').run = .ok (.ok u)) ∧
        ((∀ f q, m.Reaches entry f → m.functions.sequence f = .ok q → Code.flaw? q.code.toList = none) →
          ∃ u, (capture m entry).run = .ok (.ok u))) ∧
    ∀ (m m₂ : Machine) (entry : FnId) (u : Program), m.Arises → m₂.Arises → (capture m entry).run = .ok (.ok u) →
      (∀ f q, m.Reaches entry f → m.functions.sequence f = .ok q →
        Portable m q ∧ q.Over m.heap (fun i => m.idents.Has i (m.idents.name i)) fun _ => True) →
      u.Fits m₂ → ∃ first rest m', u.loadAll m₂ = .ok (.ok (first :: rest)) m' ∧
        (capture m' first).run = .ok (.ok u) := by
  refine ⟨fun m m' F entry entry' hm hm' hF he => ⟨capture_iff hm.sound.idents hm'.sound.idents hF he, fun hr => ?_⟩,
    fun m m₂ entry u hm hm₂ hu hq hfits => capture_loaded hm hm₂ hu hq hfits⟩
  obtain ⟨u, hu, -⟩ := capture_both hm.sound.idents hm'.sound.idents (corresponds_reached hF) ⟨.entry, he⟩
    fun f _ q h hq => hr f q h.1 hq
  exact ⟨u, hu⟩

/-- The functions of `pair` in the other order, with other numbers for the names and other references. -/
def mirrored : Machine :=
  let first : Code.Sequence := { name := ⟨35⟩, kind := .block, code := #[92, 36, 0, 0, 0, 2, 0, 0, 0] }
  let second : Code.Sequence :=
    { name := ⟨36⟩, kind := .method, code := #[12, 1, 0, 0, 0], consts := #[.ofSymbol ⟨35⟩, Heap.firstRef 2] }
  let m := after (Exec.intern "x") (after (Exec.intern "y") (Machine.blank {}))
  let m := after (Exec.alloc (.string "a")) (after (Exec.alloc (.string "b")) m)
  let m := after (Exec.alloc (.array #[Heap.firstRef 1])) m
  after (Exec.addSequence second) (after (Exec.addSequence first) m)

theorem arises_mirrored : mirrored.Arises := by
  unfold mirrored
  exact .addSequence _ <| .addSequence _ <| .alloc _ <| .alloc _ <| .alloc _ <| .intern _ <| .intern _ <| .blank {}

/-- Sequences with other numbers for their name and code, and with other literals. -/
theorem alike_of_code {h h' : Heap Object} {I : Ident → Ident → Prop} {q : Code.Sequence} {name : Ident} {code : Bytes}
    {consts : Array Value} (hname : I q.name name) (hk : q.params.keywords = []) (hl : q.locals = #[])
    (hcode : List.Forall₂ (Code.Piece.Alike I F) (Code.pieces q.code.toList) (Code.pieces code.toList))
    (hconsts : List.Forall₂ (Value.Alike h h' I) q.consts.toList consts.toList) :
    q.Alike h h' I F { q with name, code, consts } where
  name := hname
  kind := rfl
  code := hcode
  req := rfl
  opt := rfl
  rest := rfl
  post := rfl
  keywords := by
    rw [hk]
    exact .nil
  kwRest := rfl
  block := rfl
  delegate := rfl
  locals := by
    rw [hl]
    exact .nil
  kwRestSlot := rfl
  blockSlot := rfl
  delegateSlot := rfl
  slots := rfl
  consts := hconsts
  methodSites := rfl
  constSites := rfl
  handlers := List.forall₂_same.2 fun _ _ => ⟨rfl, rfl, rfl, rfl⟩
  lines := rfl
  path := rfl

theorem corresponds_mirrored : pair.Corresponds mirrored fun f g => f = ⟨1⟩ ∧ g = ⟨2⟩ ∨ f = ⟨2⟩ ∧ g = ⟨1⟩ := by
  have hx : pair.SameName mirrored ⟨35⟩ ⟨36⟩ := ⟨"x", by decide +kernel, by decide +kernel⟩
  have hy : pair.SameName mirrored ⟨36⟩ ⟨35⟩ := ⟨"y", by decide +kernel, by decide +kernel⟩
  have hmake : Code.pieces [12, 2, 0, 0, 0] = [.byte 12, .fn ⟨2⟩] := Code.pieces_instruction .createProc rfl
  have hmake' : Code.pieces [12, 1, 0, 0, 0] = [.byte 12, .fn ⟨1⟩] := Code.pieces_instruction .createProc rfl
  have hdefine : Code.pieces [92, 35, 0, 0, 0, 1, 0, 0, 0] = [.byte 92, .ident ⟨35⟩, .fn ⟨1⟩] :=
    Code.pieces_instruction .defMethod rfl
  have hdefine' : Code.pieces [92, 36, 0, 0, 0, 2, 0, 0, 0] = [.byte 92, .ident ⟨36⟩, .fn ⟨2⟩] :=
    Code.pieces_instruction .defMethod rfl
  refine ⟨⟨?_, ?_⟩, ?_⟩
  · rintro f f' g (⟨rfl, rfl⟩ | ⟨rfl, rfl⟩) (⟨rfl, h⟩ | ⟨rfl, h⟩) <;> first | rfl | cases h
  · rintro f g g' (⟨rfl, rfl⟩ | ⟨rfl, rfl⟩) (⟨h, rfl⟩ | ⟨h, rfl⟩) <;> first | rfl | cases h
  · rintro f g (⟨rfl, rfl⟩ | ⟨rfl, rfl⟩)
    · refine ⟨_, _, rfl, rfl, alike_of_code hx rfl rfl ?_ ?_⟩
      · rw [hmake, hmake']
        exact .cons (.byte 12) (.cons (.fn (by decide) (by decide) (.inr ⟨rfl, rfl⟩)) .nil)
      · refine .cons (.symbol (by decide) (by decide) hy) (.cons ?_ .nil)
        refine .array (by decide) (by decide) rfl rfl rfl fun i x y hx hy => ?_
        obtain rfl : x = Heap.firstRef 0 := by simpa using Array.mem_of_getElem? hx
        obtain rfl : y = Heap.firstRef 1 := by simpa using Array.mem_of_getElem? hy
        exact .string (by decide) (by decide) rfl rfl
    · refine ⟨_, _, rfl, rfl, alike_of_code hy rfl rfl ?_ .nil⟩
      rw [hdefine, hdefine']
      exact .cons (.byte 92) (.cons (.ident hx) (.cons (.fn (by decide) (by decide) (.inl ⟨rfl, rfl⟩)) .nil))

theorem over_pair {f : FnId} {q : Code.Sequence} (hq : pair.functions.sequence f = .ok q) :
    q.Over pair.heap (fun i => pair.idents.Has i (pair.idents.name i)) fun _ => True := by
  have hmake : Code.pieces [12, 2, 0, 0, 0] = [.byte 12, .fn ⟨2⟩] := Code.pieces_instruction .createProc rfl
  have hdefine : Code.pieces [92, 35, 0, 0, 0, 1, 0, 0, 0] = [.byte 92, .ident ⟨35⟩, .fn ⟨1⟩] :=
    Code.pieces_instruction .defMethod rfl
  have hx : pair.idents.Has ⟨35⟩ (pair.idents.name ⟨35⟩) := by decide +kernel
  have hy : pair.idents.Has ⟨36⟩ (pair.idents.name ⟨36⟩) := by decide +kernel
  obtain rfl | rfl := functions_pair hq
  · cases hq
    refine ⟨hx, ?_, ?_, fun _ _ => trivial, by simp, by simp, ?_⟩
    · rw [hmake]
      simp
    · rw [hmake]
      simp
    · intro v hv w hw hs
      simp only [List.mem_cons, List.not_mem_nil, or_false] at hv
      rcases hv with rfl | rfl
      · rwa [hw.eq_of_imm (by decide), Value.toSymbol_ofSymbol]
      · rcases within_pair hw with rfl | rfl <;> exact absurd hs (by decide)
  · cases hq
    refine ⟨hy, ?_, ?_, fun _ _ => trivial, by simp, by simp, by simp⟩
    · rw [hdefine]
      simpa using hx
    · rw [hdefine]
      simp

/-- The two machines give one program, which is given again where it was loaded. -/
theorem capture_renumbered_pair : ∃ u, (capture pair ⟨1⟩).run = .ok (.ok u) ∧ (capture mirrored ⟨2⟩).run = .ok (.ok u) ∧
    ∃ first rest m', u.loadAll mirrored = .ok (.ok (first :: rest)) m' ∧ (capture m' first).run = .ok (.ok u) := by
  obtain ⟨u, hrun, hi, hs, ho⟩ := capture_pair
  have hfits : u.Fits mirrored := fits_of_lengths hi hs ho (by decide +kernel) (by decide +kernel) (by decide +kernel)
  obtain ⟨hsame, hagain⟩ := capture_renumbered
  refine ⟨u, hrun, ?_, ?_⟩
  · exact ((hsame pair mirrored _ ⟨1⟩ ⟨2⟩ arises_pair arises_mirrored corresponds_mirrored (.inl ⟨rfl, rfl⟩)).1 u).1 hrun
  · exact hagain pair mirrored ⟨1⟩ u arises_pair arises_mirrored hrun (fun f q _ hq => ⟨portable_pair hq, over_pair hq⟩) hfits

end Program

end RubyMachine
