import RubyMachine.Proofs.Code.Instructions
import RubyMachine.Proofs.Program.RoundTrip
import RubyMachine.Proofs.Threads.Steps

/-! A program is loaded as a whole or not at all, whatever is in it: its sequences become functions when each of them
can, and otherwise the functions stay as they are. -/

namespace RubyMachine

/-! ## What computations take from the heap -/

/-- A heap had no room for `n` objects more. Nothing else was changed. -/
structure Machine.Exhausted (m : Machine) (n : Nat) (d : Defect) (m' : Machine) : Prop where
  defect : ∃ k, Heap.maxPages ≤ k ∧ d = .heapExhausted k
  room : Heap.maxPages < m.heap.pages.size + n
  rest : m' = { m with heap := m'.heap }

namespace Exec

variable {α β : Type} {m m' : Machine} {n k : Nat} {d : Defect}

/-- A computation adds at most `n` objects to the heap and changes nothing else, and it ends well if there is room. -/
def Draws (x : Exec α) (n : Nat) (m : Machine) : Prop :=
  match x m with
  | .ok _ m' => m.Stocked n m'
  | .error d m' => m.Exhausted n d m'

theorem draws_pure (hi : m.heap.Inv) (a : α) : (pure a : Exec α).Draws 0 m := Machine.Stocked.refl hi

theorem Draws.weaken {x : Exec α} (hx : x.Draws n m) (hk : n ≤ k) : x.Draws k m := by
  unfold Draws at *
  split at hx
  · exact hx.weaken hk
  · exact ⟨hx.defect, hx.room.trans_le (Nat.add_le_add_left hk _), hx.rest⟩

theorem Draws.stocked {x : Exec α} {a : α} (hx : x.Draws n m) (h : x m = .ok a m') : m.Stocked n m' := by
  unfold Draws at hx
  rwa [h] at hx

theorem Draws.exhausted {x : Exec α} (hx : x.Draws n m) (h : x m = .error d m') : m.Exhausted n d m' := by
  unfold Draws at hx
  rwa [h] at hx

theorem Draws.bind {x : Exec α} {f : α → Exec β} (hx : x.Draws n m)
    (hf : ∀ a m', x m = .ok a m' → m'.heap.Inv → (f a).Draws k m') : (x >>= f).Draws (n + k) m := by
  cases h : x m with
  | error d m' =>
    have hd := hx.exhausted h
    unfold Draws
    rw [bind_of_error h]
    exact ⟨hd.defect, hd.room.trans_le (by omega), hd.rest⟩
  | ok a m' =>
    have hs := hx.stocked h
    have hd := hf a m' h hs.heap.inv
    unfold Draws at hd ⊢
    rw [bind_of_ok h]
    split at hd
    · exact hs.trans hd
    · have := hs.heap.pages
      exact ⟨hd.defect, hd.room.trans_le (by omega), by rw [hd.rest, hs.rest]⟩

theorem draws_alloc (hi : m.heap.Inv) (o : Object) : (alloc o).Draws 1 m := by
  rcases Heap.alloc_cases hi o with ⟨v, h', h, -, hp, -⟩ | ⟨hmax, h⟩
  · have he : alloc o m = .ok v { m with heap := h' } := by
      simp only [alloc, onHeap, h]
    have pages := Heap.pages_alloc m.heap o
    rw [after_of_ok h] at pages
    unfold Draws
    rw [he]
    exact ⟨rfl, hp.inv, fun r o => hp.read_other, pages⟩
  · have he : alloc o m = .error (.heapExhausted m.heap.pages.size) { m with heap := m.heap.countAllocation } := by
      simp only [alloc, onHeap, h]
    unfold Draws
    rw [he]
    exact ⟨⟨_, hmax, rfl⟩, Nat.lt_succ_of_le hmax, rfl⟩

end Exec

namespace Program.Loading

open Exec

variable {α β : Type} {m m' m'' : Machine} {n k count : Nat} {names : Array Ident}

/-! ## Any literals -/

theorem draws_thenLoading {x : Loading α} {f : α → Loading β} (hx : x.run.Draws n m)
    (hf : ∀ a m', Gives x m a m' → m'.heap.Inv → (f a).run.Draws k m') : (x >>= f).run.Draws (n + k) m :=
  hx.bind fun r m' h hi => by
    cases r with
    | ok a => exact hf a m' h hi
    | error e => exact (draws_pure hi _).weaken (Nat.zero_le _)

theorem draws_check (hi : m.heap.Inv) (x : Except Flaw α) : (check x).run.Draws 0 m := draws_pure hi x

theorem draws_lift {x : Exec α} (hx : x.Draws n m) : (liftM x : Loading α).run.Draws n m :=
  hx.bind fun _ _ _ hi => draws_pure hi _

mutual

theorem draws_literal (names : Array Ident) : ∀ (l : Literal) (m : Machine), m.heap.Inv → (literal names l).run.Draws l.objects m
  | ⟨kind, int, float, text, ident, elems⟩, m, hi => by
    have none_drawn (r : Except Flaw Value) : (pure r : Exec (Except Flaw Value)).Draws (1 + Literal.objectsOf elems) m :=
      (draws_pure hi r).weaken (Nat.zero_le _)
    rw [literal, Literal.objects]
    split_ifs
    · exact none_drawn _
    · exact none_drawn _
    · exact none_drawn _
    · split <;> exact none_drawn _
    · exact none_drawn _
    · refine (draws_thenLoading (k := 0) (draws_check hi _) fun i m' _ hi' => ?_).weaken (Nat.zero_le _)
      exact draws_pure hi' _
    · exact (draws_lift (draws_alloc hi _)).weaken (Nat.le_add_right _ _)
    · rw [Nat.add_comm]
      exact draws_thenLoading (draws_literals names elems m hi) fun vs m' _ hi' => draws_lift (draws_alloc hi' _)
    · exact none_drawn _

theorem draws_literals (names : Array Ident) : ∀ (ls : List Literal) (m : Machine), m.heap.Inv →
    (literals names ls).run.Draws (Literal.objectsOf ls) m
  | [], m, hi => by
    rw [literals]
    exact draws_pure hi _
  | l :: ls, m, hi => by
    rw [literals, Literal.objectsOf]
    refine draws_thenLoading (draws_literal names l m hi) fun v m' _ hi' => ?_
    exact draws_thenLoading (draws_literals names ls m' hi') fun vs m'' _ hi'' => draws_pure hi'' _

end

theorem draws_sequence (names : Array Ident) (count : Nat) (s : Sequence) (hi : m.heap.Inv) :
    (sequence names count s).run.Draws (Literal.objectsOf s.consts) m := by
  unfold sequence
  refine Exec.Draws.weaken (n := 0 + (Literal.objectsOf s.consts + (0 + 0))) ?_ (Nat.zero_add _).le
  refine draws_thenLoading (draws_check hi _) fun q m₁ _ hi₁ => ?_
  refine draws_thenLoading (draws_literals names s.consts m₁ hi₁) fun vs m₂ _ hi₂ => ?_
  exact draws_thenLoading (draws_check hi₂ _) fun xs m₃ _ hi₃ => draws_pure hi₃ _

theorem draws_sequences (names : Array Ident) (count i : Nat) (ss : List Sequence) (hi : m.heap.Inv) :
    (sequences names count i ss).Draws (ss.map fun s => Literal.objectsOf s.consts).sum m := by
  induction ss generalizing m i with
  | nil => exact draws_pure hi _
  | cons s ss ih =>
    rw [List.map_cons, List.sum_cons]
    refine (draws_sequence names count s hi).bind fun r m₁ _ hi₁ => ?_
    cases r with
    | error e => exact (draws_pure hi₁ _).weaken (Nat.zero_le _)
    | ok q => exact (ih (i + 1) hi₁).bind fun _ _ _ hi₂ => draws_pure hi₂ _

/-! ## Any code -/

/-- A name that was loaded has a number among those that were given. -/
theorem names_of_identOf {n : UInt32} {i : Ident} (h : identOf names n = .ok i) : Names names n i := by
  unfold identOf at h
  split at h
  · cases h
    assumption
  · cases h

/-- A piece leaves no flaw only when there was none before, and its number is in range. -/
theorem renumbered_of_piece_run {p q : Code.Piece} {e : Option Flaw} (hp : p.Proper)
    (h : ((relocator names count).piece p).run e = (q, none)) :
    e = none ∧ p.Renumbered (Names names) (fun n f => f.id = n ∧ n.toNat ≤ count) q := by
  cases p with
  | byte b =>
    cases h
    exact ⟨rfl, .byte b⟩
  | ident i =>
    cases hi : identOf names i.id with
    | ok j =>
      simp only [Code.Relocator.piece, relocator, hi] at h
      cases h
      exact ⟨rfl, .ident (names_of_identOf hi)⟩
    | error e' =>
      simp only [Code.Relocator.piece, relocator, hi] at h
      cases e <;> cases h
  | symbol v =>
    cases hi : identOf names v.toSymbol.id with
    | ok j =>
      simp only [Code.Relocator.piece, relocator, hi] at h
      cases h
      exact ⟨rfl, .symbol hp (names_of_identOf hi)⟩
    | error e' =>
      simp only [Code.Relocator.piece, relocator, hi] at h
      cases e <;> cases h
  | fn f =>
    by_cases hf : f.id.toNat > count
    · simp only [Code.Relocator.piece, relocator, if_pos hf] at h
      cases e <;> cases h
    · simp only [Code.Relocator.piece, relocator, if_neg hf] at h
      cases h
      exact ⟨rfl, .fn hp ⟨rfl, Nat.le_of_not_lt hf⟩⟩

theorem renumbered_of_pieces_run {ps qs : List Code.Piece} {e : Option Flaw} (hp : ∀ p ∈ ps, p.Proper)
    (h : (ps.mapM (relocator names count).piece).run e = (qs, none)) :
    e = none ∧ List.Forall₂ (Code.Piece.Renumbered (Names names) fun n f => f.id = n ∧ n.toNat ≤ count) ps qs := by
  induction ps generalizing e qs with
  | nil =>
    cases h
    exact ⟨rfl, .nil⟩
  | cons p ps ih =>
    rw [List.mapM_cons, StateT.run_bind] at h
    obtain ⟨q, e₁, hq⟩ : ∃ q e₁, ((relocator names count).piece p).run e = (q, e₁) := ⟨_, _, rfl⟩
    obtain ⟨rs, e₂, hrs⟩ : ∃ rs e₂, (ps.mapM (relocator names count).piece).run e₁ = (rs, e₂) := ⟨_, _, rfl⟩
    rw [hq] at h
    have hcons : (q :: rs, e₂) = (qs, none) := by
      rw [← h]
      change _ = ((ps.mapM (relocator names count).piece) >>= fun rs => pure (q :: rs)).run e₁
      rw [StateT.run_bind, hrs]
      rfl
    cases hcons
    obtain ⟨rfl, hall⟩ := ih (fun p hp' => hp p (by simp [hp'])) hrs
    obtain ⟨rfl, hpq⟩ := renumbered_of_piece_run (hp p (by simp)) hq
    exact ⟨rfl, .cons hpq hall⟩

/-- Code is renumbered only if it can be read and all numbers in it are in range. -/
theorem renumbered_of_relocate {code code' : Bytes} (h : relocate names count code = .ok code') :
    Code.flaw? code.toList = none ∧
      List.Forall₂ (Code.Piece.Renumbered (Names names) fun n f => f.id = n ∧ n.toNat ≤ count)
        (Code.pieces code.toList) (Code.pieces code'.toList) := by
  obtain ⟨qs, e, hq⟩ : ∃ qs e, ((Code.pieces code.toList).mapM (relocator names count).piece).run none = (qs, e) :=
    ⟨_, _, rfl⟩
  have hr : ((relocator names count).apply code).run none = (((Code.render qs).toArray, Code.flaw? code.toList), e) := by
    rw [Code.Relocator.apply_eq, StateT.run_map, hq]
    rfl
  unfold relocate at h
  extract_lets r at h
  rw [show (r.apply code).run none = _ from hr] at h
  cases hf : Code.flaw? code.toList with
  | some e' =>
    rw [hf] at h
    cases h
  | none =>
    rw [hf] at h
    cases e with
    | some e' => cases h
    | none =>
      cases h
      obtain ⟨-, hall⟩ := renumbered_of_pieces_run Code.proper_pieces hq
      have alike := hall.imp fun _ _ hp => hp.alike fun n f hn hf => hf.1 ▸ hn
      rw [List.toList_toArray, (Code.pieces_render alike).1]
      exact ⟨rfl, hall⟩

/-- Code that was renumbered can be walked again, and each function in it is one of the program's. -/
theorem linkable_of_relocate {code code' : Bytes} (h : relocate names count code = .ok code') : Linkable count code' := by
  obtain ⟨hflaw, hall⟩ := renumbered_of_relocate h
  have alike := hall.imp fun _ _ hp => hp.alike fun n f hn hf => hf.1 ▸ hn
  refine ⟨?_, fun f hf => ?_⟩
  · rw [← Code.render_pieces code'.toList, (Code.pieces_render alike).2, hflaw]
  · obtain ⟨p, -, hp⟩ := exists_of_forall₂ hall.flip _ hf
    cases hp with
    | fn _ h => exact h.1 ▸ h.2

/-- Code whose functions then follow those that are there is renumbered from the code that was stored. -/
theorem renumbered_of_shift {I : UInt32 → Ident → Prop} {F : UInt32 → FnId → Prop} {code code' : Bytes} (there : Nat)
    (h : relocate names count code = .ok code') (hI : ∀ n i, Names names n i → I n i)
    (hF : ∀ n : UInt32, n ≠ 0 → n.toNat ≤ count → F n ⟨UInt32.ofNat (there + n.toNat)⟩) :
    Code.Renumbered I F code.toList (shiftFunctions there code').toList := by
  obtain ⟨hflaw, hall⟩ := renumbered_of_relocate h
  rw [shiftFunctions, List.toList_toArray]
  refine Code.renumbered_of_pieces hflaw ?_
  rw [List.forall₂_map_right_iff]
  refine hall.imp fun p q hp => ?_
  cases hp with
  | byte b => exact .byte b
  | ident hi => exact .ident (hI _ _ hi)
  | symbol hv hi => exact .symbol hv (hI _ _ hi)
  | @fn f g hf hg =>
    obtain ⟨he, hle⟩ := hg
    refine .fn hf ?_
    rw [he]
    exact hF f.id hf hle

/-! ## Any sequences -/

theorem of_ok_bind {ε : Type} {x : Except ε α} {f : α → Except ε β} {b : β} (h : (x >>= f) = .ok b) :
    ∃ a, x = .ok a ∧ f a = .ok b := by
  cases x with
  | ok a => exact ⟨a, rfl, h⟩
  | error e => cases h

theorem Gives.of_bind {x : Loading α} {f : α → Loading β} {b : β} (h : Gives (x >>= f) m b m'') :
    ∃ a m', Gives x m a m' ∧ Gives (f a) m' b m'' := by
  obtain ⟨r, m', hx, hf⟩ := exists_of_bind (x := x.run) h
  cases r with
  | ok a => exact ⟨a, m', hx, hf⟩
  | error e => cases hf

/-- The code and the caches of a sequence that was loaded. -/
structure Kin (names : Array Ident) (count : Nat) (s : Sequence) (q : Code.Sequence) : Prop where
  code : relocate names count (s.code.getD #[]) = .ok q.code
  methodSites : q.methodSites = s.methodSites
  constSites : q.constSites = s.constSites

theorem kin_of_outline {s : Sequence} {q : Code.Sequence} (h : outline names count s = .ok q) : Kin names count s q := by
  obtain ⟨name, -, h⟩ := of_ok_bind h
  obtain ⟨code, hc, h⟩ := of_ok_bind h
  obtain ⟨keywords, -, h⟩ := of_ok_bind h
  obtain ⟨locals, -, h⟩ := of_ok_bind h
  obtain ⟨kwRest, -, h⟩ := of_ok_bind h
  obtain ⟨block, -, h⟩ := of_ok_bind h
  obtain ⟨delegate, -, h⟩ := of_ok_bind h
  cases h
  exact ⟨hc, rfl, rfl⟩

theorem kin_of_sequence {s : Sequence} {q : Code.Sequence} (h : Gives (sequence names count s) m q m') :
    Kin names count s q := by
  obtain ⟨q₁, m₁, ho, h⟩ := h.of_bind
  obtain ⟨vs, m₂, -, h⟩ := h.of_bind
  obtain ⟨xs, m₃, -, h⟩ := h.of_bind
  cases h
  have hk : Kin names count s q₁ := kin_of_outline (EStateM.Result.ok.inj ho).1
  exact ⟨hk.code, hk.methodSites, hk.constSites⟩

/-- What holds of each sequence that is loaded holds of all of them. -/
theorem forall₂_of_sequences {R : Sequence → Code.Sequence → Prop}
    (hR : ∀ {s q m m'}, Gives (sequence names count s) m q m' → R s q) {ss : List Sequence} {qs : List Code.Sequence} {i : Nat}
    (h : sequences names count i ss m = .ok (.ok qs) m') : List.Forall₂ R ss qs := by
  induction ss generalizing m i qs with
  | nil =>
    cases h
    exact .nil
  | cons s ss ih =>
    obtain ⟨r, m₁, hs, h⟩ := exists_of_bind h
    cases r with
    | error e => cases h
    | ok q =>
      obtain ⟨r, m₂, hss, h⟩ := exists_of_bind h
      cases r with
      | error e => cases h
      | ok rest =>
        cases h
        exact .cons (hR hs) (ih hss)

theorem kin_of_sequences {ss : List Sequence} {qs : List Code.Sequence} {i : Nat}
    (h : sequences names count i ss m = .ok (.ok qs) m') : List.Forall₂ (Kin names count) ss qs :=
  forall₂_of_sequences kin_of_sequence h

theorem linkable_of_kin {ss : List Sequence} {qs : List Code.Sequence} (kin : List.Forall₂ (Kin names ss.length) ss qs) :
    ∀ q ∈ qs, Linkable qs.length q.code := by
  intro q hq
  obtain ⟨s, -, hk⟩ := exists_of_forall₂ kin.flip q hq
  exact kin.length_eq ▸ linkable_of_relocate hk.code

end Program.Loading

/-! ## Any program -/

namespace Program

/-- There can be as many caches as a sequence asks for. -/
structure Sequence.HasCaches (s : Sequence) : Prop where
  methodSites : 0 ≤ s.methodSites ∧ s.methodSites * 136 ≤ 0x1000000000000
  constSites : 0 ≤ s.constSites ∧ s.constSites * 24 ≤ 0x1000000000000

theorem Loading.Kin.canHoldSites {names : Array Ident} {count : Nat} {s : Sequence} {q : Code.Sequence}
    (h : Kin names count s q) (hs : s.HasCaches) : Function.canHoldSites q = true := by
  simp only [Function.canHoldSites, h.methodSites, h.constSites, hs.methodSites, hs.constSites, decide_true, Bool.and_self]

/-- What the number of a name in a program is in a machine. -/
def Named (p : Program) (m : Machine) (n : UInt32) (i : Ident) : Prop :=
  ∃ name, (p.idents.getD [])[n.toNat]? = some name ∧ m.idents.lookup? name = some i

/-- The sequences of a program are functions, in order, after those that there were: all the same instructions, with
names as the machine has them and functions as they were added. -/
structure Registered (p : Program) (m : Machine) (fns : List FnId) (m' : Machine) : Prop where
  numbers : fns = nextFns m.functions.size (p.sequences.getD []).length
  functions : ∃ qs : List Code.Sequence,
    m'.functions.functions = m.functions.functions ++ (qs.map Function.ofSequence).toArray ∧
    List.Forall₂ (fun s q => Code.Renumbered (p.Named m') (fun n f => fns[n.toNat - 1]? = some f) (s.code.getD #[]).toList
      q.code.toList) (p.sequences.getD []) qs

variable {m : Machine}

/-- Sequences that were loaded are registered when they are added. -/
theorem registered_of_kin {p : Program} {m m' : Machine} {names : List Ident} {qs : List Code.Sequence}
    (hfound : List.Forall₂ (fun name i => m'.idents.lookup? name = some i) (p.idents.getD []) names)
    (kin : List.Forall₂ (Loading.Kin names.toArray (p.sequences.getD []).length) (p.sequences.getD []) qs)
    (added : m'.functions = ⟨m.functions.functions ++
      (qs.map fun q => Function.ofSequence (Loading.shiftSequence m.functions.size q)).toArray⟩) :
    p.Registered m (nextFns m.functions.size (p.sequences.getD []).length) m' := by
  refine ⟨rfl, qs.map (Loading.shiftSequence m.functions.size), ?_, ?_⟩
  · rw [added, List.map_map]
    rfl
  rw [List.forall₂_map_right_iff]
  refine kin.imp fun s q hk => Loading.renumbered_of_shift m.functions.size hk.code (fun n i hi => ?_) fun n hn hle => ?_
  · rw [Loading.Names, List.getElem?_toArray] at hi
    obtain ⟨hlt, -⟩ := List.getElem?_eq_some_iff.1 hi
    have hname := List.getElem?_eq_getElem (hfound.length_eq ▸ hlt)
    exact ⟨_, hname, forall₂_getElem? hfound hname hi⟩
  · have hpos : n.toNat ≠ 0 := fun h => hn (UInt32.toNat.inj h)
    rw [getElem?_nextFns (by omega), show m.functions.size + (n.toNat - 1) + 1 = m.functions.size + n.toNat by omega]

theorem loadAll_cases (hi : m.heap.Inv) (p : Program) (hp : ∀ s ∈ p.sequences.getD [], s.HasCaches) :
    match p.loadAll m with
    | .ok (.ok fns) m' => p.Registered m fns m'
    | .ok (.error _) m' => m'.functions = m.functions
    | .error d m' => m.Exhausted p.objects d { m with heap := m'.heap } ∧ m'.functions = m.functions := by
  by_cases hentry : p.entry = 0 ∨ p.entry.toNat > (p.sequences.getD []).length
  · unfold loadAll
    simp only [if_pos hentry, pure_apply]
  obtain ⟨names, t, hnames, -, -, hfound⟩ := Exec.mapM_intern_lookup? m (p.idents.getD [])
  have drawn := Loading.draws_sequences names.toArray (p.sequences.getD []).length 1 (p.sequences.getD [])
    (m := { m with idents := t }) hi
  cases hqs : Loading.sequences names.toArray (p.sequences.getD []).length 1 (p.sequences.getD []) { m with idents := t } with
  | error d m₁ =>
    have exhausted := drawn.exhausted hqs
    unfold loadAll
    simp only [if_neg hentry, bind_apply, hnames, hqs]
    exact ⟨⟨exhausted.defect, exhausted.room, rfl⟩, by rw [exhausted.rest]⟩
  | ok r m₁ =>
    have stocked := drawn.stocked hqs
    have there : m₁.functions = m.functions := by rw [stocked.rest]
    cases r with
    | error e =>
      unfold loadAll
      simp only [if_neg hentry, bind_apply, hnames, hqs, pure_apply]
      exact there
    | ok qs =>
      have kin := Loading.kin_of_sequences hqs
      have caches : ∀ q ∈ qs, Function.canHoldSites q = true := by
        intro q hq
        obtain ⟨s, hs, hk⟩ := exists_of_forall₂ kin.flip q hq
        exact hk.canHoldSites (hp s hs)
      rw [loadAll_eq hentry hnames hqs caches (Loading.linkable_of_kin kin), there, ← kin.length_eq]
      have found : List.Forall₂ (fun name i => m₁.idents.lookup? name = some i) (p.idents.getD []) names := by
        rw [stocked.rest]
        exact hfound
      exact registered_of_kin found kin rfl

/-- A program is loaded as a whole, or the functions stay as they are. Nothing else can go wrong than that the heap has
no room for its literals. -/
theorem loadAll_whole (hm : m.Arises) (p : Program) (hp : ∀ s ∈ p.sequences.getD [], s.HasCaches) :
    (∀ fns m', p.loadAll m = .ok (.ok fns) m' → p.Registered m fns m') ∧
    (∀ e m', p.loadAll m = .ok (.error e) m' → m'.functions = m.functions) ∧
    ∀ d m', p.loadAll m = .error d m' → (∃ k, Heap.maxPages ≤ k ∧ d = .heapExhausted k) ∧
      Heap.maxPages < m.heap.pages.size + p.objects ∧ m'.functions = m.functions := by
  have cases := loadAll_cases hm.sound.heap p hp
  refine ⟨fun fns m' h => ?_, fun e m' h => ?_, fun d m' h => ?_⟩
  · rwa [h] at cases
  · rwa [h] at cases
  · rw [h] at cases
    exact ⟨cases.1.defect, cases.1.room, cases.2⟩

/-- Two sequences that refer to each other and to a name, as a symbol and as an operand. -/
def couple : Program where
  idents := some ["go"]
  sequences := some [
    { code := some (#[Code.Opcode.createProc.byte, 2, 0, 0, 0, Code.Opcode.pushVal.byte] ++
        (Bytes.le64 (Value.ofSymbol ⟨0⟩).bits).toArray) },
    { code := some #[Code.Opcode.getIvar.byte, 0, 0, 0, 0, Code.Opcode.createProc.byte, 1, 0, 0, 0] }]
  entry := 1

theorem loadAll_whole_couple : ∃ fns m', couple.loadAll (.blank {}) = .ok (.ok fns) m' ∧ fns = [⟨1⟩, ⟨2⟩] ∧
    couple.Registered (.blank {}) fns m' := by
  have caches : ∀ s ∈ couple.sequences.getD [], s.HasCaches := by
    intro s hs
    rcases List.mem_cons.1 hs with rfl | hs
    · exact ⟨by decide, by decide⟩
    · cases List.mem_singleton.1 hs
      exact ⟨by decide, by decide⟩
  have loads : (result? (couple.loadAll) (.blank {})).bind Except.toOption = some [⟨1⟩, ⟨2⟩] := by
    decide +kernel
  obtain ⟨r, hr, hfns⟩ := Option.bind_eq_some_iff.1 loads
  have hl := eq_ok_of_result? hr
  rw [eq_ok_of_toOption hfns] at hl
  exact ⟨_, _, hl, rfl, (loadAll_whole (.blank {}) couple caches).1 _ _ hl⟩

end Program

end RubyMachine
