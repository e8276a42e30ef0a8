import RubyMachine.Proofs.Function.Table
import RubyMachine.Proofs.Ident.Interning
import RubyMachine.Proofs.Machine.Soundness
import RubyMachine.Proofs.Program.Captured
import RubyMachine.Proofs.Program.Loaded

/-! Loading a captured program gives back what was captured. -/

namespace RubyMachine

namespace Program

/-- Objects that the literals of a program may take. -/
def objects (p : Program) : Nat := ((p.sequences.getD []).map fun s => Literal.objectsOf s.consts).sum

/-- The functions that are added to a machine, the first one next after those that are there. -/
def nextFns (there n : Nat) : List FnId := (List.range n).map fun i => ⟨UInt32.ofNat (there + i + 1)⟩

theorem getElem?_nextFns {there n i : Nat} (hi : i < n) : (nextFns there n)[i]? = some ⟨UInt32.ofNat (there + i + 1)⟩ := by
  simp [nextFns, hi]

namespace Loading

variable {h : Heap Object} {I : UInt32 → Ident → Prop} {F : UInt32 → FnId → Prop} {names : Array Ident} {count : Nat}
  {m m' : Machine}

/-- What loading asks of the code that a stored sequence stands for. -/
def Accepts (h : Heap Object) (q : Code.Sequence) : Prop :=
  q.Loadable ∧ ∀ v ∈ q.consts, ∀ w, h.Within v w → w.Built

theorem sequences_ok (hn : Numbered names count I F) {ss : List Sequence} {i : Nat}
    (hs : ∀ s ∈ ss, ∃ q, s.Denotes h I F q ∧ Accepts h q) (hi : m.heap.Inv)
    (hroom : m.heap.pages.size + (ss.map fun s => Literal.objectsOf s.consts).sum ≤ Heap.maxPages) :
    ∃ rs m', sequences names count i ss m = .ok (.ok rs) m' ∧
      m.Stocked (ss.map fun s => Literal.objectsOf s.consts).sum m' ∧
      List.Forall₂ (fun s r => s.Denotes m'.heap (Names names) (fun n f => f.id = n ∧ n.toNat ≤ count) r) ss rs := by
  induction ss generalizing m i with
  | nil => exact ⟨[], m, rfl, .refl hi, .nil⟩
  | cons s ss ih =>
    rw [List.map_cons, List.sum_cons] at hroom ⊢
    obtain ⟨q, hd, hl, hb⟩ := hs s (by simp)
    obtain ⟨r, m₁, hr, hst, hr'⟩ := gives_sequence hn hd hl hb hi (by omega)
    obtain ⟨rs, m₂, hrs, hst', hrs'⟩ := ih (i := i + 1) (fun s hs' => hs s (by simp [hs'])) hst.heap.inv
      (by have := hst.heap.pages; omega)
    refine ⟨r :: rs, m₂, ?_, hst.trans hst', .cons (hr'.extend hst'.heap.read) hrs'⟩
    simp only [sequences, bind_apply]
    rw [show (sequence names count s).run m = .ok (.ok r) m₁ from hr]
    simp only [bind_apply, hrs]
    rfl

/-! ## Functions -/

/-- A piece of code whose functions follow those that are there. -/
def shifted (there : Nat) : Code.Piece → Code.Piece
  | .fn f => .fn ⟨UInt32.ofNat (there + f.id.toNat)⟩
  | p => p

/-- Code whose functions follow those that are there. -/
def shiftFunctions (there : Nat) (code : Bytes) : Bytes :=
  (Code.render ((Code.pieces code.toList).map (shifted there))).toArray

def shiftSequence (there : Nat) (q : Code.Sequence) : Code.Sequence := { q with code := shiftFunctions there q.code }

theorem shift_pieces {there : Nat} {code : Bytes}
    (h : ∀ f, Code.Piece.fn f ∈ Code.pieces code.toList → there + f.id.toNat < 2 ^ 32) :
    List.Forall₂ (Code.Piece.Alike Eq fun f g => g.id.toNat = there + f.id.toNat) (Code.pieces code.toList)
      (Code.pieces (shiftFunctions there code).toList) := by
  have hp : ∀ p ∈ Code.pieces code.toList,
      p.Alike Eq (fun f g => g.id.toNat = there + f.id.toNat) (shifted there p) := by
    intro p hp
    have hproper := Code.proper_pieces p hp
    cases p with
    | byte b => exact .byte b
    | ident i => exact .ident rfl
    | symbol v => exact .symbol hproper hproper rfl
    | fn f =>
      have hlt := h f hp
      have hn : (UInt32.ofNat (there + f.id.toNat)).toNat = there + f.id.toNat :=
        UInt32.toNat_ofNat_of_lt' (by rwa [UInt32.size])
      refine .fn hproper (fun hz => hproper (UInt32.toNat.inj ?_)) hn
      have := congrArg UInt32.toNat hz
      change (UInt32.ofNat (there + f.id.toNat)).toNat = 0 at this
      rw [hn] at this
      change f.id.toNat = 0
      omega
  have hall : List.Forall₂ (Code.Piece.Alike Eq fun f g => g.id.toNat = there + f.id.toNat) (Code.pieces code.toList)
      ((Code.pieces code.toList).map (shifted there)) := by
    rw [List.forall₂_map_right_iff]
    exact List.forall₂_same.2 hp
  rw [shiftFunctions, List.toList_toArray, (Code.pieces_render hall).1]
  exact hall

/-- Code that can be read, each function in it one of the `count` sequences of a program. -/
structure Linkable (count : Nat) (code : Bytes) : Prop where
  readable : Code.flaw? code.toList = none
  functions : ∀ f, Code.Piece.fn f ∈ Code.pieces code.toList → f.id.toNat ≤ count

theorem linkable_of_denotes {s : Sequence} {q : Code.Sequence}
    (hs : s.Denotes h I (fun n f => f.id = n ∧ n.toNat ≤ count) q) : Linkable count q.code := by
  refine ⟨hs.readable, fun f hf => ?_⟩
  obtain ⟨p, -, hp⟩ := exists_of_forall₂ hs.code.flip _ hf
  cases hp with
  | fn _ _ h => exact h.1 ▸ h.2

/-- What stands for a sequence stands for it still when its functions follow those that are there. -/
theorem shift_denotes (there : Nat) {s : Sequence} {q : Code.Sequence} (hb : there + count < 2 ^ 32)
    (hs : s.Denotes h I (fun n f => f.id = n ∧ n.toNat ≤ count) q) :
    s.Denotes h I (fun n g => g.id.toNat = there + n.toNat) (shiftSequence there q) := by
  have hbound (f : FnId) (hf : Code.Piece.fn f ∈ Code.pieces q.code.toList) : there + f.id.toNat < 2 ^ 32 := by
    have := (linkable_of_denotes hs).functions f hf
    omega
  have hshift := shift_pieces hbound
  refine { hs with code := forall₂_comp hs.code hshift fun _ _ _ hp hp' => hp.trans hp' ?_ ?_, readable := ?_ }
  · rintro i j _ hi rfl
    exact hi
  · rintro f g k ⟨hg, -⟩ hk
    rw [hk, hg]
  · have h := (Code.pieces_render hshift).2
    rw [Code.render_pieces] at h
    exact h.trans hs.readable

theorem linker_piece {there : Nat} {p : Code.Piece} (hp : p.Proper) (hle : ∀ f, p = .fn f → f.id.toNat ≤ count) :
    (linker (nextFns there count).toArray).piece p = .ok (shifted there p) := by
  cases p with
  | byte b => rfl
  | ident i => rfl
  | symbol v => rfl
  | fn f =>
    have hpos : f.id.toNat ≠ 0 := fun h => hp (UInt32.toNat.inj h)
    have hf : (nextFns there count).toArray[f.id.toNat - 1]? = some ⟨UInt32.ofNat (there + f.id.toNat)⟩ := by
      have := hle f rfl
      rw [List.getElem?_toArray, getElem?_nextFns (by omega), show there + (f.id.toNat - 1) + 1 = there + f.id.toNat by omega]
    simp only [Code.Relocator.piece, linker, hf]
    rfl

/-- Code that was checked is linked: no flaw is found in it any more, and no number without a function. -/
theorem linker_apply {there : Nat} {code : Bytes} (h : Linkable count code) :
    (linker (nextFns there count).toArray).apply code = .ok (shiftFunctions there code, none) := by
  have hmap (ps : List Code.Piece) (hps : ∀ p ∈ ps, p ∈ Code.pieces code.toList) :
      ps.mapM (linker (nextFns there count).toArray).piece = .ok (ps.map (shifted there)) := by
    induction ps with
    | nil => rfl
    | cons p ps ih =>
      have hp := hps p (by simp)
      rw [List.mapM_cons, linker_piece (Code.proper_pieces p hp) fun f hf => h.functions f (hf ▸ hp),
        ih fun q hq => hps q (by simp [hq])]
      rfl
  rw [Code.Relocator.apply_eq, hmap _ fun _ => id, h.readable]
  rfl

/-- Functions are added at the end, with the numbers that follow. -/
theorem mapM_addSequence {qs : List Code.Sequence} (hq : ∀ q ∈ qs, Function.canHoldSites q = true) :
    qs.mapM Exec.addSequence m = .ok (nextFns m.functions.size qs.length)
      { m with functions := ⟨m.functions.functions ++ (qs.map Function.ofSequence).toArray⟩ } := by
  induction qs generalizing m with
  | nil => simp [nextFns]
  | cons q qs ih =>
    have hadd : Exec.addSequence q m = .ok ⟨UInt32.ofNat (m.functions.size + 1)⟩
        { m with functions := ⟨m.functions.functions.push (.ofSequence q)⟩ } := by
      simp [Exec.addSequence, hq q (by simp), Exec.addFunction, FunctionTable.add]
    rw [List.mapM_cons, bind_apply, hadd]
    have hsize : (⟨m.functions.functions.push (.ofSequence q)⟩ : FunctionTable).size = m.functions.size + 1 :=
      Array.size_push _
    simp only [bind_apply, ih fun q hq' => hq q (by simp [hq']), pure_apply, hsize, nextFns, List.length_cons,
      List.range_succ_eq_map, List.map_cons, List.map_map]
    refine congrArg₂ _ (congrArg₂ _ rfl (List.map_congr_left fun i _ => ?_)) ?_
    · exact congrArg (fun k => (⟨UInt32.ofNat k⟩ : FnId)) (by simp; omega)
    · simp

/-- The code of functions that were added is linked where it is. -/
theorem link_eq (m : Machine) {there : Nat} (before : Array Function) {qs : List Code.Sequence}
    (hq : ∀ q ∈ qs, Linkable count q.code) : link (nextFns there count).toArray before.size qs
      { m with functions := ⟨before ++ (qs.map Function.ofSequence).toArray⟩ } = .ok (.ok ()) { m with functions :=
        ⟨before ++ (qs.map fun q => Function.ofSequence (shiftSequence there q)).toArray⟩ } := by
  induction qs generalizing before with
  | nil => rfl
  | cons q qs ih =>
    let added : Machine := { m with functions := ⟨before ++ ((q :: qs).map Function.ofSequence).toArray⟩ }
    have linked : (liftM ((linker (nextFns there count).toArray).apply q.code) : Exec _) added =
        .ok (shiftFunctions there q.code, none) added := by
      rw [linker_apply (hq q (by simp))]
      rfl
    rw [link, bind_of_ok linked]
    dsimp only
    rw [bind_of_ok (modify_apply _ _)]
    have rest := ih (before.push (.ofSequence (shiftSequence there q))) fun q hq' => hq q (by simp [hq'])
    rw [Array.size_push] at rest
    simp only [added, List.map_cons, FunctionTable.modify_next]
    refine rest.trans ?_
    simp

end Loading

/-! ## The whole program -/

end Program

/-- A machine that has all that another one has, with more names, objects and functions perhaps. -/
structure Machine.Extends (m m' : Machine) : Prop where
  rest : m' = { m with idents := m'.idents, heap := m'.heap, functions := m'.functions }
  idents : m.idents.Grows m'.idents
  inv : m'.heap.Inv
  heap : ∀ r o, m.heap.read r = .ok o → m'.heap.read r = .ok o
  functions : ∀ f g, m.functions.find? f = some g → m'.functions.find? f = some g

namespace Program

/-- There is room for a program: numbers for its names and functions, and pages for its literals. -/
structure Fits (p : Program) (m : Machine) : Prop where
  idents : m.idents.size + (p.idents.getD []).length ≤ 2 ^ 32
  functions : m.functions.size + (p.sequences.getD []).length < 2 ^ 32
  heap : m.heap.pages.size + p.objects ≤ Heap.maxPages

/-- What can be taken from one machine to another: code whose literals were made by constructors, whose handlers
lie inside of it and whose parameter slots have names. -/
structure Portable (m : Machine) (q : Code.Sequence) : Prop where
  literals : ∀ v ∈ q.consts, ∀ w, m.heap.Within v w → w.Built
  handlers : ∀ x ∈ q.handlers, 0 ≤ x.start ∧ x.stop ≤ q.code.size ∧ 0 ≤ x.dest ∧ x.dest ≤ q.code.size
  kwRest : ∀ n, q.kwRestSlot = some n → n.toNat < q.locals.size
  block : ∀ n, q.blockSlot = some n → n.toNat < q.locals.size
  delegate : ∀ n, q.delegateSlot = some n → n.toNat < q.locals.size

/-- Sequences are added and linked, and nothing that could go wrong is left, if there can be their caches and each
function in them is one of theirs. -/
theorem loadAll_eq {p : Program} {m m₁ m₂ : Machine} {names : List Ident} {qs : List Code.Sequence}
    (hentry : ¬ (p.entry = 0 ∨ p.entry.toNat > (p.sequences.getD []).length))
    (hnames : (p.idents.getD []).mapM Exec.intern m = .ok names m₁)
    (hqs : Loading.sequences names.toArray (p.sequences.getD []).length 1 (p.sequences.getD []) m₁ = .ok (.ok qs) m₂)
    (hsites : ∀ q ∈ qs, Function.canHoldSites q = true) (hlink : ∀ q ∈ qs, Loading.Linkable qs.length q.code) :
    p.loadAll m = .ok (.ok (nextFns m₂.functions.size qs.length)) { m₂ with functions := ⟨m₂.functions.functions ++
      (qs.map fun q => Function.ofSequence (Loading.shiftSequence m₂.functions.size q)).toArray⟩ } := by
  unfold loadAll
  simp only [if_neg hentry, bind_apply, hnames, hqs, get_apply, Loading.mapM_addSequence hsites]
  rw [FunctionTable.size, Loading.link_eq m₂ _ hlink]
  rfl

/-- The code of a function that was added. -/
theorem sequence_added (there : FunctionTable) {rs : List Code.Sequence} {i : Nat} {r : Code.Sequence}
    (hr : rs[i]? = some r) (hb : there.size + rs.length < 2 ^ 32) :
    FunctionTable.sequence ⟨there.functions ++ (rs.map Function.ofSequence).toArray⟩
      ⟨UInt32.ofNat (there.size + i + 1)⟩ = .ok r := by
  obtain ⟨hi, -⟩ := List.getElem?_eq_some_iff.1 hr
  have hn : (UInt32.ofNat (there.size + i + 1)).toNat = there.size + i + 1 :=
    UInt32.toNat_ofNat_of_lt' (by rw [UInt32.size]; omega)
  have hz : UInt32.ofNat (there.size + i + 1) ≠ 0 := fun h => by rw [h] at hn; cases hn
  have hget : (there.functions ++ (rs.map Function.ofSequence).toArray)[there.size + i]? = some (.ofSequence r) := by
    rw [FunctionTable.size, Array.getElem?_append_right (Nat.le_add_right _ _)]
    simp [hr]
  refine FunctionTable.sequence_eq_ok.2 ⟨.ofSequence r, ?_, rfl⟩
  rw [FunctionTable.find?, if_neg hz, hn]
  exact hget

theorem Portable.accepts {m : Machine} {q : Code.Sequence} (h : Portable m q) : Loading.Accepts m.heap q :=
  ⟨⟨h.kwRest, h.block, h.delegate, h.handlers⟩, h.literals⟩

/-- Functions of one machine with those that were added to another for them: the same code, the names in it being
the same names, and the functions in it again those that were added. -/
def Copied (m m' : Machine) (fns added : List FnId) : Prop :=
  List.Forall₂ (fun f g => ∃ q r, m.functions.sequence f = .ok q ∧ m'.functions.sequence g = .ok r ∧
    q.Alike m.heap m'.heap (fun i j => m'.idents.Has j (m.idents.name i)) (fun a b => (a, b) ∈ fns.zip added) r) fns added

theorem canHoldSites_congr {q r : Code.Sequence} (hm : q.methodSites = r.methodSites) (hc : q.constSites = r.constSites) :
    Function.canHoldSites q = Function.canHoldSites r := by
  rw [Function.canHoldSites, Function.canHoldSites, hm, hc]

theorem mem_zip_of_getElem? {α β : Type} {l : List α} {r : List β} {i : Nat} {a : α} {b : β} (ha : l[i]? = some a)
    (hb : r[i]? = some b) : (a, b) ∈ l.zip r :=
  List.mem_of_getElem? (List.getElem?_zip_eq_some.2 ⟨ha, hb⟩)

theorem length_nextFns (there n : Nat) : (nextFns there n).length = n := by
  simp [nextFns]

/-- The numbers that a capture gave out lie within what is loaded. -/
theorem numbered_of_size {t : Numbering} {names : Array Ident} (h : names.size = t.idents.size) :
    Loading.Numbered names t.fns.size t.Names t.Calls where
  ident _ _ hi := h ▸ (Array.getElem?_eq_some_iff.1 hi).1
  fn n f hf := by
    have := (Array.getElem?_eq_some_iff.1 hf.2).1
    omega

/-- A stored sequence stands for code of one machine and for what was loaded in another: the names are the same, and
the functions those that were added. -/
theorem alike_of_stored {m m' : Machine} {t : Numbering} {names : List Ident} {there : Nat} {s : Sequence}
    {q r : Code.Sequence} (hq : s.Denotes m.heap t.Names t.Calls q)
    (hr : s.Denotes m'.heap (Loading.Names names.toArray) (fun n g => g.id.toNat = there + n.toNat) r)
    (hnames : List.Forall₂ (fun name i => m'.idents.Has i name) (t.idents.toList.map m.idents.name) names) :
    q.Alike m.heap m'.heap (fun i j => m'.idents.Has j (m.idents.name i))
      (fun a b => (a, b) ∈ t.fns.toList.zip (nextFns there t.fns.size)) r := by
  refine hq.alike hr (fun n i j hi hj => ?_) fun n f g hf hg => ?_
  · rw [Loading.Names, List.getElem?_toArray] at hj
    refine forall₂_getElem? hnames ?_ hj
    rw [List.getElem?_map, Array.getElem?_toList, show t.idents[n.toNat]? = some i from hi, Option.map_some]
  · obtain ⟨hz, hf⟩ := hf
    have hpos : n.toNat ≠ 0 := fun h => hz (UInt32.toNat.inj h)
    have hlt := (Array.getElem?_eq_some_iff.1 hf).1
    refine mem_zip_of_getElem? (i := n.toNat - 1) (by rwa [Array.getElem?_toList]) ?_
    rw [getElem?_nextFns hlt, show there + (n.toNat - 1) + 1 = g.id.toNat by omega, UInt32.ofNat_toNat]

/-- What a program that stands for functions of one machine gives in another. -/
theorem loadAll_of_denotes {m m₂ : Machine} {t : Numbering} {rs : List Sequence} (hrs : List.Forall₂ (fun f r =>
      ∃ q, m.functions.sequence f = .ok q ∧ r.Denotes m.heap t.Names t.Calls q) t.fns.toList rs)
    (hq : ∀ f ∈ t.fns, ∀ q, m.functions.sequence f = .ok q → Portable m q ∧ Function.canHoldSites q = true)
    (hi : m₂.heap.Inv) (hfits : (ofNumbering m 1 rs t).Fits m₂) (hne : t.fns.size ≠ 0) :
    ∃ m', (ofNumbering m 1 rs t).loadAll m₂ = .ok (.ok (nextFns m₂.functions.size t.fns.size)) m' ∧ m₂.Extends m' ∧
      Copied m m' t.fns.toList (nextFns m₂.functions.size t.fns.size) := by
  have hlen : rs.length = t.fns.size := by rw [← hrs.length_eq, Array.length_toList]
  have hb : m₂.functions.size + rs.length < 2 ^ 32 := hfits.functions
  obtain ⟨names, tbl, hnames, hgrow, hhas⟩ := Exec.mapM_intern hfits.idents
  have hn : Loading.Numbered names.toArray rs.length t.Names t.Calls := by
    rw [hlen]
    refine numbered_of_size ?_
    rw [List.size_toArray, ← hhas.length_eq]
    simp [ofNumbering]
  have hs : ∀ s ∈ rs, ∃ q, s.Denotes m.heap t.Names t.Calls q ∧ Portable m q ∧ Function.canHoldSites q = true := by
    intro s hs
    obtain ⟨f, hf, q, hq', hd⟩ := exists_of_forall₂ hrs.flip s hs
    exact ⟨q, hd, hq f (Array.mem_toList_iff.1 hf) q hq'⟩
  obtain ⟨qs, m₁, hqs, hst, hall⟩ := Loading.sequences_ok (m := { m₂ with idents := tbl }) (i := 1) hn
    (fun s h => (hs s h).imp fun q h => ⟨h.1, h.2.1.accepts⟩) hi hfits.heap
  have hthere : m₁.functions = m₂.functions := by rw [hst.rest]
  have hidents : m₁.idents = tbl := by rw [hst.rest]
  have hholds : ∀ q ∈ qs, Function.canHoldSites q = true := by
    intro r hr
    obtain ⟨s, hs', hr⟩ := exists_of_forall₂ hall.flip r hr
    obtain ⟨q, hd, -, hq⟩ := hs s hs'
    exact (canHoldSites_congr (hr.methodSites.symm.trans hd.methodSites) (hr.constSites.symm.trans hd.constSites)).trans hq
  have hqlen : qs.length = t.fns.size := hall.length_eq.symm.trans hlen
  have hlink : ∀ q ∈ qs, Loading.Linkable qs.length q.code := by
    intro r hr
    obtain ⟨s, -, hr⟩ := exists_of_forall₂ hall.flip r hr
    rw [← hall.length_eq]
    exact Loading.linkable_of_denotes hr
  have hload := loadAll_eq ?_ hnames hqs hholds hlink
  · rw [hqlen, hthere] at hload
    refine ⟨_, hload, ⟨?_, hidents ▸ hgrow, hst.heap.inv, hst.heap.read, fun _ _ => FunctionTable.find?_append⟩, ?_⟩
    · rw [hst.rest]
    refine List.forall₂_iff_get.2 ⟨by simp [length_nextFns], fun i hi hi' => ?_⟩
    have hi₁ : i < rs.length := by simpa [hlen] using hi
    have hi₂ : i < qs.length := by rwa [hqlen, ← hlen]
    obtain ⟨q, hq', hd⟩ := hrs.get hi hi₁
    have hr := Loading.shift_denotes m₂.functions.size hb (hall.get hi₁ hi₂)
    refine ⟨q, Loading.shiftSequence m₂.functions.size qs[i], hq', ?_, alike_of_stored hd hr (hidents ▸ hhas)⟩
    have hget : (qs.map (Loading.shiftSequence m₂.functions.size))[i]? = some (Loading.shiftSequence m₂.functions.size qs[i]) := by
      rw [List.getElem?_map, List.getElem?_eq_getElem hi₂, Option.map_some]
    have hadded := sequence_added m₂.functions hget (by rw [List.length_map, hqlen, ← hlen]; exact hb)
    simpa [nextFns, Function.comp_def] using hadded
  · rintro (h | h)
    · exact absurd (show (1 : UInt32) = 0 from h) (by decide)
    · exact absurd h (Nat.not_lt.2 (show 1 ≤ rs.length by omega))

/-- Functions that code of a captured program refers to are among those captured. -/
theorem mem_of_reaches {m : Machine} {t : Numbering} {rs : List Sequence} {entry : FnId} (hentry : entry ∈ t.fns)
    (hrs : List.Forall₂ (fun f r => ∃ q, m.functions.sequence f = .ok q ∧ r.Denotes m.heap t.Names t.Calls q)
      t.fns.toList rs) {f : FnId} (hf : m.Reaches entry f) : f ∈ t.fns := by
  induction hf with
  | entry => exact hentry
  | refer _ hq hg ih =>
    obtain ⟨r, -, q, hq', hd⟩ := exists_of_forall₂ hrs _ (Array.mem_toList_iff.2 ih)
    cases hq.symm.trans hq'
    obtain ⟨p, -, hp⟩ := exists_of_forall₂ hd.code.flip _ hg
    cases hp with
    | fn _ _ h => exact Array.mem_of_getElem? h.2

/-- Loading undoes capturing. The functions that the entry leads to are added to the machine in the order in which
they were captured, and everything else in the machine stays. -/
theorem loadAll_capture {m m₂ : Machine} {entry : FnId} {u : Program} (hm : m.Arises) (hm₂ : m₂.Arises)
    (hu : (capture m entry).run = .ok (.ok u))
    (hq : ∀ f q, m.Reaches entry f → m.functions.sequence f = .ok q → Portable m q) (hfits : u.Fits m₂) :
    ∃ fns m', u.loadAll m₂ = .ok (.ok (nextFns m₂.functions.size fns.length)) m' ∧ fns.head? = some entry ∧ fns.Nodup ∧
      (∀ f, f ∈ fns ↔ m.Reaches entry f) ∧ (u.sequences.getD []).length = fns.length ∧ m₂.Extends m' ∧
      Copied m m' fns (nextFns m₂.functions.size fns.length) := by
  obtain ⟨t, rs, ht, hfirst, rfl, hrs⟩ := captured hu
  have hpos : 0 < t.fns.size := (Array.getElem?_eq_some_iff.1 hfirst).1
  obtain ⟨m', hload, hext, hcopied⟩ := loadAll_of_denotes hrs
    (fun f hf q hfq => ⟨hq f q (ht.bytecode f hf).2 hfq, hm.sound.functions f q hfq⟩) hm₂.sound.heap hfits (by omega)
  rw [← Array.length_toList] at hload hcopied
  refine ⟨t.fns.toList, m', hload, ?_, ht.fns, fun f => ?_, hrs.length_eq.symm, hext, hcopied⟩
  · rw [List.head?_eq_getElem?, Array.getElem?_toList, hfirst]
  · rw [Array.mem_toList_iff]
    exact ⟨fun hf => (ht.bytecode f hf).2, mem_of_reaches (Array.mem_of_getElem? hfirst) hrs⟩

/-- Two functions that refer to each other, with a name and a list of a text among the literals. -/
def pair : Machine :=
  let first : Code.Sequence :=
    { name := ⟨35⟩, kind := .method, code := #[12, 2, 0, 0, 0], consts := #[.ofSymbol ⟨36⟩, Heap.firstRef 1] }
  let second : Code.Sequence := { name := ⟨36⟩, kind := .block, code := #[92, 35, 0, 0, 0, 1, 0, 0, 0] }
  let m := after (Exec.intern "y") (after (Exec.intern "x") (Machine.blank {}))
  let m := after (Exec.alloc (.array #[Heap.firstRef 0])) (after (Exec.alloc (.string "a")) m)
  after (Exec.addSequence second) (after (Exec.addSequence first) m)

theorem arises_pair : pair.Arises := by
  unfold pair
  exact .addSequence _ <| .addSequence _ <| .alloc _ <| .alloc _ <| .intern _ <| .intern _ <| .blank {}

theorem within_pair {w : Value} (hw : pair.heap.Within (Heap.firstRef 1) w) : w = Heap.firstRef 1 ∨ w = Heap.firstRef 0 := by
  have hlist : pair.heap.read (Heap.firstRef 1).toRef = .ok (.array #[Heap.firstRef 0]) := rfl
  have htext : pair.heap.read (Heap.firstRef 0).toRef = .ok (.string "a") := rfl
  cases hw with
  | self => exact .inl rfl
  | elem _ hread hmem hw =>
    cases hlist.symm.trans hread
    obtain rfl := List.mem_singleton.1 (Array.mem_toList_iff.2 hmem)
    cases hw with
    | self => exact .inr rfl
    | elem _ hread => cases htext.symm.trans hread

/-- There are two functions. -/
theorem functions_pair {f : FnId} {q : Code.Sequence} (hq : pair.functions.sequence f = .ok q) : f = ⟨1⟩ ∨ f = ⟨2⟩ := by
  have hsize : pair.functions.size = 2 := by decide +kernel
  obtain ⟨hpos, hle⟩ := Capture.id_bounds (Capture.isBytecode_iff.2 ⟨q, hq⟩)
  rw [hsize] at hle
  obtain h | h : f.id.toNat = 1 ∨ f.id.toNat = 2 := by omega
  · exact .inl (congrArg FnId.mk (UInt32.toNat.inj h))
  · exact .inr (congrArg FnId.mk (UInt32.toNat.inj h))

theorem portable_pair {f : FnId} {q : Code.Sequence} (hq : pair.functions.sequence f = .ok q) : Portable pair q := by
  obtain rfl | rfl := functions_pair hq
  · cases hq
    refine ⟨fun v hv w hw => ?_, by simp, by simp, by simp, by simp⟩
    simp only [List.mem_toArray, List.mem_cons, List.not_mem_nil, or_false] at hv
    rcases hv with rfl | rfl
    · rw [hw.eq_of_imm (by decide)]
      exact .symbol _
    · rcases within_pair hw with rfl | rfl <;> exact .ref _
  · cases hq
    exact ⟨by simp, by simp, by simp, by simp, by simp⟩

theorem eq_ok_of_toOption {ε α : Type} {x : Except ε α} {a : α} (h : x.toOption = some a) : x = .ok a := by
  cases x with
  | ok b => rw [Option.some.inj h]
  | error e => cases h

theorem capture_pair : ∃ u, (capture pair ⟨1⟩).run = .ok (.ok u) ∧ (u.idents.getD []).length = 3 ∧
    (u.sequences.getD []).length = 2 ∧ u.objects = 3 := by
  have hcap : ((capture pair ⟨1⟩).run.toOption.bind Except.toOption).map (fun u =>
      ((u.idents.getD []).length, (u.sequences.getD []).length, u.objects)) = some (3, 2, 3) := by decide +kernel
  obtain ⟨u, hu, hn⟩ := Option.map_eq_some_iff.1 hcap
  obtain ⟨r, hr, hu⟩ := Option.bind_eq_some_iff.1 hu
  simp only [Prod.mk.injEq] at hn
  exact ⟨u, by rw [eq_ok_of_toOption hr, eq_ok_of_toOption hu], hn⟩

theorem fits_of_lengths {u : Program} {m : Machine} {i s o : Nat} (hi : (u.idents.getD []).length = i)
    (hs : (u.sequences.getD []).length = s) (ho : u.objects = o) (hmi : m.idents.size + i ≤ 2 ^ 32)
    (hms : m.functions.size + s < 2 ^ 32) (hmo : m.heap.pages.size + o ≤ Heap.maxPages) : u.Fits m :=
  ⟨hi ▸ hmi, hs ▸ hms, ho ▸ hmo⟩

/-- Loaded into the machine they come from, the two functions are there twice. -/
theorem loadAll_capture_pair : ∃ u fns m', (capture pair ⟨1⟩).run = .ok (.ok u) ∧ u.Fits pair ∧
    u.loadAll pair = .ok (.ok [⟨3⟩, ⟨4⟩]) m' ∧ fns.head? = some ⟨1⟩ ∧ Copied pair m' fns [⟨3⟩, ⟨4⟩] := by
  obtain ⟨u, hrun, hi, hs, ho⟩ := capture_pair
  have hfits : u.Fits pair := fits_of_lengths hi hs ho (by decide +kernel) (by decide +kernel) (by decide +kernel)
  obtain ⟨fns, m', hload, hhead, -, -, hlen, -, hcopied⟩ :=
    loadAll_capture arises_pair arises_pair hrun (fun f q _ => portable_pair) hfits
  have hnext : nextFns pair.functions.size fns.length = [⟨3⟩, ⟨4⟩] := by
    rw [← hlen, hs]
    decide +kernel
  rw [hnext] at hload hcopied
  exact ⟨u, fns, m', hrun, hfits, hload, hhead, hcopied⟩

end Program

end RubyMachine
