import RubyMachine.Proofs.Heap.Use

/-! References that outlive their objects. The generation of a cell counts modulo 2^16 how often sweeps freed it, whichever
way the cell came back into use: from the free list, or with its page. So a reference that has gone stale is good again
when its cell is in use and has been freed a multiple of 2^16 times, and only then. -/

namespace RubyMachine.Heap

variable {α : Type} {h h' h'' : Heap α} {refs : α → List Value} {p c i j n k : Nat} {r : Ref} {obj : α}

/-! ## Operations -/

inductive Operation (α : Type) where
  | alloc (obj : α)
  | replace (r : Ref) (obj : α)
  | clearMarks
  | markValue (v : Value)
  | markRef (r : Ref)
  | sweep

/-- Whether the cell holds an object. -/
def holds (h : Heap α) (p c : Nat) : Bool := (h.cellAt p c).obj.isSome

namespace Operation

/-- What an operation makes of a heap, also one that ends in a defect. -/
def perform (refs : α → List Value) (h : Heap α) : Operation α → Heap α
  | alloc obj => after (Heap.alloc obj) h
  | replace r obj => (h.replace r obj).toOption.getD h
  | clearMarks => h.clearMarks
  | markValue v => after (Heap.markValue refs v) h
  | markRef r => after (Heap.markRef refs r) h
  | sweep => after Heap.sweep h

/-- How often the operation frees a cell: once, if it is a sweep that takes the object away. -/
def frees (h : Heap α) (p c : Nat) : Operation α → Nat
  | sweep => (h.holds p c && !(after Heap.sweep h).holds p c).toNat
  | _ => 0

/-- How often the operation puts a new object into a cell. -/
def fills (h : Heap α) (p c : Nat) : Operation α → Nat
  | alloc obj => (!h.holds p c && (after (Heap.alloc obj) h).holds p c).toNat
  | _ => 0

end Operation

/-- Operations in any order lead from `h` to `h'`. Meanwhile sweeps freed the cell `c` of page `p` `n` times, and `k` new
objects were put into it. -/
inductive Course (refs : α → List Value) (p c : Nat) : Nat → Nat → Heap α → Heap α → Prop where
  | nil {h : Heap α} : Course refs p c 0 0 h h
  | snoc {n k : Nat} {h h' : Heap α} (o : Operation α) : Course refs p c n k h h' →
      Course refs p c (n + o.frees h' p c) (k + o.fills h' p c) h (o.perform refs h')

/-- Heaps in use stay in use. -/
theorem InUse.perform (hu : InUse refs n h) (o : Operation α) : ∃ n', InUse refs n' (o.perform refs h) := by
  cases o with
  | alloc obj => exact ⟨n, hu.alloc obj⟩
  | replace r obj =>
    rw [Operation.perform]
    cases hr : h.replace r obj with
    | error d => exact ⟨n, hu⟩
    | ok h' => exact ⟨n, hu.replace hr⟩
  | clearMarks => exact ⟨n, hu.clearMarks⟩
  | markValue v => exact ⟨n, hu.markValue v⟩
  | markRef r => exact ⟨n, hu.markRef r⟩
  | sweep =>
    obtain ⟨freed, h', hrun, -⟩ := sweep_spec hu.balanced.inv.toCore
    refine ⟨n + freed.length, ?_⟩
    rw [Operation.perform, after_of_ok hrun]
    exact hu.sweep hrun

theorem Course.inUse (hc : Course refs p c n k h h') (hu : InUse refs i h) : ∃ i', InUse refs i' h' := by
  induction hc with
  | nil => exact ⟨i, hu⟩
  | snoc o _ ih =>
    obtain ⟨i', hu'⟩ := ih hu
    exact hu'.perform o

/-! ## Generations -/

/-- What being freed `n` times and filled `k` times does to a cell. -/
structure Turns (p c n k : Nat) (h h' : Heap α) : Prop where
  size : h.pages.size ≤ h'.pages.size
  gen : (h'.cellAt p c).gen = (h.cellAt p c).gen + UInt16.ofNat n
  held : (h'.holds p c).toNat + n = (h.holds p c).toNat + k

namespace Turns

theorem trans (h₁ : Turns p c n k h h') (h₂ : Turns p c i j h' h'') : Turns p c (n + i) (k + j) h h'' where
  size := h₁.size.trans h₂.size
  gen := by rw [h₂.gen, h₁.gen, UInt16.ofNat_add, UInt16.add_assoc]
  held := by
    have := h₁.held
    have := h₂.held
    omega

/-- A cell that keeps its generation and its object, if it has one, was not freed. -/
theorem filled (hs : h.pages.size ≤ h'.pages.size) (hg : (h'.cellAt p c).gen = (h.cellAt p c).gen)
    (ho : h.holds p c = true → h'.holds p c = true) : Turns p c 0 (!h.holds p c && h'.holds p c).toNat h h' where
  size := hs
  gen := hg.trans (UInt16.add_zero _).symm
  held := by
    cases hh : h.holds p c with
    | true => rw [ho hh]; rfl
    | false => rw [Bool.not_false, Bool.true_and, Bool.toNat_false]; omega

theorem same (hs : h.pages.size ≤ h'.pages.size) (hg : (h'.cellAt p c).gen = (h.cellAt p c).gen)
    (ho : h'.holds p c = h.holds p c) : Turns p c 0 0 h h' := by
  have ht := filled hs hg fun hh => ho.trans hh
  rwa [ho, Bool.not_and_self] at ht

theorem alloc (hi : h.Inv) (obj : α) : Turns p c 0 ((Operation.alloc obj).fills h p c) h (after (Heap.alloc obj) h) := by
  rcases alloc_spec hi obj with ⟨q, d, h', hrun, hp⟩ | ⟨-, hrun⟩
  · rw [Operation.fills, after_of_ok hrun]
    have hcell := hp.cell p c
    refine filled hp.size ?_ fun hh => ?_
    · rw [hcell]
      split_ifs with he
      · rw [he.1, he.2]
      · rfl
    · rw [holds, hcell]
      split_ifs
      · rfl
      · exact hh
  · have hcell : h.countAllocation.cellAt p c = h.cellAt p c := by simp only [cellAt, countAllocation_pages]
    rw [Operation.fills, after_of_error hrun]
    refine filled (by rw [countAllocation_pages]) (by rw [hcell]) fun hh => ?_
    rw [holds, hcell]
    exact hh

theorem replace (r : Ref) (obj : α) : Turns p c 0 0 h ((h.replace r obj).toOption.getD h) := by
  rw [Heap.replace]
  cases h.read r with
  | error d => exact .same le_rfl rfl rfl
  | ok o =>
    have hcell := cellAt_update h r (fun _ => obj) p c
    change Turns p c 0 0 h (h.update r fun _ => obj)
    refine .same (size_modifyPage h r.page _).ge ?_ ?_
    · rw [hcell]
    · rw [holds, holds]
      exact (congrArg (·.obj.isSome) hcell).trans Option.isSome_map

theorem clearMarks (h : Heap α) : Turns p c 0 0 h h.clearMarks := by
  have hcell := cellAt_clearMarks h p c
  refine .same (sameShape_clearMarks h).size.ge ?_ ?_
  · rw [hcell]
  · rw [holds, hcell, holds]

theorem setMark {q d : Nat} (ht : Turns p c 0 0 h h') (hq : q < h'.pages.size) : Turns p c 0 0 h (h'.setMark q d) := by
  have hcell := cellAt_setMark hq d p c
  refine ht.trans (.same (sameShape_setMark hq d).size.ge ?_ ((sameShape_setMark hq d).obj p c))
  rw [hcell]
  split_ifs with he
  · rw [he.1, he.2]
  · rfl

/-- A sweep frees the cells that it takes objects from, and moves them on by a generation. -/
theorem sweep (hi : h.Core) : Turns p c ((Operation.sweep : Operation α).frees h p c) 0 h (after Heap.sweep h) := by
  obtain ⟨freed, h', hrun, hs, -⟩ := sweep_spec hi
  rw [Operation.frees, after_of_ok hrun]
  have hobj := hs.obj p c
  have hgen := hs.gen p c
  rw [Cell.swept] at hobj hgen
  split_ifs at hobj hgen with hd
  · have hheld : h.holds p c = true := (Bool.and_eq_true_iff.1 hd).1
    have hgone : h'.holds p c = false := congrArg Option.isSome hobj
    rw [hheld, hgone]
    exact ⟨hs.size.ge, hgen, by rw [hheld, hgone]; rfl⟩
  · have hsame : h'.holds p c = h.holds p c := congrArg Option.isSome hobj
    rw [hsame, Bool.and_not_self]
    exact .same hs.size.ge hgen hsame

/-- What one operation does to a cell. -/
theorem perform (hi : h.Inv) (o : Operation α) : Turns p c (o.frees h p c) (o.fills h p c) h (o.perform refs h) := by
  have here : Turns p c 0 0 h h := .same le_rfl rfl rfl
  cases o with
  | alloc obj => exact alloc hi obj
  | replace r obj => exact replace r obj
  | clearMarks => exact clearMarks h
  | markValue v => exact after_markValue (fun _ _ _ ht hq _ _ _ => setMark ht hq) refs v here
  | markRef r => exact after_markRef (fun _ _ _ ht hq _ _ _ => setMark ht hq) refs r here
  | sweep => exact sweep hi.toCore

end Turns

theorem Course.turns (hc : Course refs p c n k h h') (hu : InUse refs i h) : Turns p c n k h h' := by
  induction hc with
  | nil => exact .same le_rfl rfl rfl
  | snoc o hc ih =>
    obtain ⟨_, hu'⟩ := hc.inUse hu
    exact (ih hu).trans (.perform hu'.balanced.inv o)

/-! ## Stale references -/

/-- What reading through a reference to a place on some page gives. -/
theorem Core.read_eq (hi : h.Core) (hp : r.page < h.pages.size) (hc : r.cell < pageCells) :
    h.read r = match (h.cellAt r.page r.cell).obj with
      | none => .error (.freedCell r)
      | some obj => if (h.cellAt r.page r.cell).gen = r.gen then .ok obj
        else .error (.staleRef r (h.cellAt r.page r.cell).gen) := by
  have hfree : (h.cellAt r.page r.cell).obj.isSome = true → (h.cellAt r.page r.cell).free = false :=
    (hi.page r.page).not_free_of_obj
  rw [read, if_neg (by omega)]
  dsimp only
  cases ho : (h.cellAt r.page r.cell).obj with
  | none => cases (h.cellAt r.page r.cell).free <;> rfl
  | some obj => simp only [hfree (by rw [ho]; rfl)]

theorem add_ofNat_eq_self {g : UInt16} : g + UInt16.ofNat n = g ↔ 2 ^ 16 ∣ n := by
  have hz : UInt16.ofNat n = 0 ↔ 2 ^ 16 ∣ n := by
    rw [← UInt16.toNat_inj, UInt16.toNat_ofNat', Nat.dvd_iff_mod_eq_zero]
    rfl
  have hc : g + UInt16.ofNat n = g + 0 ↔ UInt16.ofNat n = 0 := UInt16.add_right_inj g
  rwa [UInt16.add_zero, hz] at hc

/-- A good reference later on: it is good if its cell holds an object and has been freed a multiple of 2^16 times. -/
theorem Course.read_iff (hc : Course refs r.page r.cell n k h h') (hu : InUse refs i h) (hr : h.read r = .ok obj) :
    (∀ o, h'.read r = .ok o ↔ (h'.cellAt r.page r.cell).obj = some o ∧ 2 ^ 16 ∣ n) ∧
    (∀ d, h'.read r = .error d ↔ (h'.cellAt r.page r.cell).obj = none ∧ d = .freedCell r ∨
      h'.holds r.page r.cell = true ∧ ¬ 2 ^ 16 ∣ n ∧ d = .staleRef r (r.gen + UInt16.ofNat n)) := by
  obtain ⟨hp, hlt, -, ho, hg⟩ := read_eq_ok.1 hr
  obtain ⟨_, hu'⟩ := hc.inUse hu
  have ht := hc.turns hu
  have hgen := ht.gen
  rw [hg] at hgen
  rw [hu'.balanced.inv.toCore.read_eq (hp.trans_le ht.size) hlt, hgen, holds]
  simp only [add_ofNat_eq_self]
  cases (h'.cellAt r.page r.cell).obj with
  | none => simp [eq_comm]
  | some o =>
    dsimp only
    split_ifs with hd <;> simp only [hd] <;> simp [eq_comm]

/-- What a reference that was handed out leads to at any later moment. Where it is good, its cell was filled as often
as it was freed; so until it was freed 2^16 times, the reference leads to no other object. -/
theorem read_exact {h₀ : Heap α} {v : Value} (hu : InUse refs i h₀) (ha : Heap.alloc obj h₀ = .ok v h)
    (hc : Course refs v.toRef.page v.toRef.cell n k h h') : v.isRef = true ∧
      (∀ o, h'.read v.toRef = .ok o ↔ (h'.cellAt v.toRef.page v.toRef.cell).obj = some o ∧ 2 ^ 16 ∣ n) ∧
      (∀ d, h'.read v.toRef = .error d ↔
        (h'.cellAt v.toRef.page v.toRef.cell).obj = none ∧ d = .freedCell v.toRef ∨
        h'.holds v.toRef.page v.toRef.cell = true ∧ ¬ 2 ^ 16 ∣ n ∧
          d = .staleRef v.toRef (v.toRef.gen + UInt16.ofNat n)) ∧
      (∀ d, h'.read v.toRef = .error d → d.severity = .internal) ∧
      (∀ o, h'.read v.toRef = .ok o → k = n) ∧
      (1 ≤ n → n ≤ 65535 → ∃ d, h'.read v.toRef = .error d) := by
  obtain ⟨hv, hread⟩ : v.isRef = true ∧ h.read v.toRef = .ok obj := by
    rcases alloc_cases hu.balanced.inv obj with ⟨v', h₁, hrun, hv, -, hread⟩ | ⟨-, hrun⟩
    · cases ha.symm.trans hrun
      exact ⟨hv, hread⟩
    · cases ha.symm.trans hrun
  have hu' : InUse refs i h := by
    have := hu.alloc obj
    rwa [after_of_ok ha] at this
  obtain ⟨hok, herr⟩ := hc.read_iff hu' hread
  refine ⟨hv, hok, herr, fun d hd => ?_, fun o ho => ?_, fun h₁ hn => ?_⟩
  · rcases (herr d).1 hd with ⟨-, rfl⟩ | ⟨-, -, rfl⟩ <;> rfl
  · have hheld := (hc.turns hu').held
    rw [holds, holds, ((hok o).1 ho).1, (read_eq_ok.1 hread).2.2.2.1] at hheld
    exact (Nat.add_left_cancel hheld).symm
  · have hnd : ¬ 2 ^ 16 ∣ n := Nat.not_dvd_of_pos_of_lt h₁ (Nat.lt_succ_of_le hn)
    cases hr : h'.read v.toRef with
    | error d => exact ⟨d, rfl⟩
    | ok o => exact absurd ((hok o).1 hr).2 hnd

/-! ## A cell freed over and over -/

/-- A heap with one object, in its first cell; the counts are those of `h`. -/
def lone (h : Heap α) (gen : UInt16) (obj : α) : Heap α := { h with
  pages := #[{ cells := #[{ obj := some obj, gen := gen, next := -1 }], used := 1, live := 1 }]
  freePages := []
  current := some 0
  freeHead := -1
  freeCount := 0
  live := 1
  debug := true }

/-- A heap where only the first cell was used, and is free. -/
def vacant (h : Heap α) (gen : UInt16) : Heap α := { h with
  pages := #[{ cells := #[{ gen := gen, free := true, next := -1 }], used := 1, live := 0 }]
  freePages := []
  current := some 0
  freeHead := 0
  freeCount := 1
  live := 0
  debug := true }

theorem sweep_lone (h : Heap α) (gen : UInt16) (obj : α) :
    ∃ h', Heap.sweep (lone h gen obj) = .ok [obj] (vacant h' (gen + 1)) := by
  have hl : (0 : Int32) = linkTo 0 0 := by decide
  refine ⟨{ h with sweeps := h.sweeps + 1 }, ?_⟩
  rw [vacant, hl]
  rfl

theorem countAllocation_vacant (h : Heap α) (gen : UInt16) :
    (vacant h gen).countAllocation = vacant h.countAllocation gen := by
  by_cases ht : h.threshold ≤ h.sinceCollection + 1
  · rw [countAllocation, countAllocation, if_pos ht]
    exact if_pos ht
  · rw [countAllocation, countAllocation, if_neg ht]
    exact if_neg ht

theorem takeFree_vacant (h : Heap α) (gen : UInt16) :
    takeFree (vacant h gen) = .ok (0, 0) { vacant h gen with freeHead := -1, freeCount := 0 } := by
  have hsplit : splitLink 0 = (0, 0) := rfl
  simp [takeFree, vacant, hsplit, cellAt]

theorem alloc_vacant (h : Heap α) (gen : UInt16) (obj : α) :
    ∃ h', Heap.alloc obj (vacant h gen) = .ok (.ofRef (.make 0 0 gen)) (lone h' gen obj) := by
  have hhead : 0 ≤ (vacant h.countAllocation gen).freeHead := show (0 : Int32) ≤ 0 by decide
  refine ⟨{ h.countAllocation with totalAllocated := h.countAllocation.totalAllocated + 1 }, ?_⟩
  rw [Heap.alloc, bind_of_ok (modify_apply _ _), countAllocation_vacant, bind_of_ok (get_apply _), if_pos hhead,
    bind_of_ok (takeFree_vacant ..)]
  rfl

/-- A sweep and an allocation, `n` times. -/
theorem course_lone {refs : Nat → List Value} (h : Heap Nat) (n : Nat) :
    ∃ h', Course refs 0 0 n n (lone h 0 0) (lone h' (UInt16.ofNat n) n) := by
  induction n with
  | zero => exact ⟨h, .nil⟩
  | succ n ih =>
    obtain ⟨h₁, hc⟩ := ih
    obtain ⟨h₂, hs⟩ := sweep_lone h₁ (UInt16.ofNat n) n
    obtain ⟨h₃, ha⟩ := alloc_vacant h₂ (UInt16.ofNat n + 1) (n + 1)
    have hc₃ := (hc.snoc .sweep).snoc (.alloc (n + 1))
    simp only [Operation.perform, Operation.frees, Operation.fills, after_of_ok hs, after_of_ok ha] at hc₃
    rw [UInt16.ofNat_add]
    exact ⟨h₃, hc₃⟩

theorem alloc_new (obj : α) :
    Heap.alloc obj (new 0 true) = .ok (firstRef 0) (lone (after (Heap.alloc obj) (new 0 true)) 0 obj) := by
  rw [lone]
  rfl

/-- The reference to the first object leads to the last one after 2^16 sweeps. -/
theorem read_lone_exact : ∃ h : Heap Nat, Course (fun _ => []) 0 0 (2 ^ 16) (2 ^ 16)
    (lone (after (Heap.alloc 0) (new 0 true)) 0 0) h ∧ h.read (firstRef 0).toRef = .ok (2 ^ 16) := by
  obtain ⟨h', hc⟩ := course_lone (after (Heap.alloc 0) (new 0 true)) (2 ^ 16)
  have hr := read_exact (.new 0 true) (alloc_new 0) hc
  exact ⟨_, hc, (hr.2.1 _).2 ⟨rfl, dvd_rfl⟩⟩

end RubyMachine.Heap
