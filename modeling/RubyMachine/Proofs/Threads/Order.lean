import RubyMachine.Proofs.Threads.Steps

/-! Machines in which all threads are in order: what is left to be done on each can be done, no fiber is on two
threads, and those that wait are active. Every step keeps a machine in order. -/

namespace RubyMachine

/-- What is left to be done on a thread can be done when something comes back that is marked. -/
def Context.Owes (x : Context) (q : Mark) : Prop := ∃ p, q.Leads x.konts p

theorem Context.Owes.of_meets {x : Context} {p q : Mark} (h : x.Owes q) (hp : p.Meets q) : x.Owes p := by
  obtain ⟨r, hr⟩ := h
  exact ⟨r, hr.of_meets hp⟩

namespace Machine

/-- The thread that runs and those that wait for it, the innermost first. -/
def chain (m : Machine) : List Context := m.context :: m.waiting

structure Ordered (m : Machine) : Prop where
  numbered : m.Numbered
  waiting : ∀ x ∈ m.waiting, x.Owes x.mark
  stored : ∀ i x, (m.fibers.getD i default).state ≠ .dead → (m.fibers.getD i default).context = some x →
    x.fiber = some i ∧ x.Owes x.mark
  live : ∀ x ∈ m.chain, ∀ id, x.fiber = some id → id < m.fibers.size ∧ (m.fibers.getD id default).active = true
  distinct : (m.chain.map Context.fiber).Nodup

variable {m m' : Machine} {p q : Mark} {c c' : Control} {id : Nat} {b : Bool}

/-- What comes next can be done, and then what is left. -/
structure Ready (c : Control) (m : Machine) : Prop where
  fits : c.Fits m.context
  owes : m.context.Owes (c.mark m.context)

theorem Defers.owes (h : m.Defers p m' q) (ho : m.context.Owes p) : m'.context.Owes q := by
  obtain ⟨ks, hk, hl, -⟩ := h.konts
  obtain ⟨r, hr⟩ := ho
  exact ⟨r, hk ▸ hl.append hr⟩

theorem Defers.chain (h : m.Defers p m' q) : m'.chain.map Context.fiber = m.chain.map Context.fiber := by
  simp only [Machine.chain, List.map_cons, h.fiber, h.waiting]

namespace Ordered

theorem defers (hm : m.Ordered) (h : m.Defers p m' q) : m'.Ordered where
  numbered := h.numbered hm.numbered
  waiting := h.waiting ▸ hm.waiting
  stored i x hs hx := by
    rcases (h.fibers i).context with hc | ⟨hc, -⟩
    · exact hm.stored i x (fun hd => hs ((h.fibers i).dead hd)) (hc ▸ hx)
    · cases hc.symm.trans hx
  live x hx i hi := by
    have hmem : some i ∈ m.chain.map Context.fiber := h.chain ▸ List.mem_map.mpr ⟨x, hx, hi⟩
    obtain ⟨y, hy, hyi⟩ := List.mem_map.mp hmem
    obtain ⟨hlt, ha⟩ := hm.live y hy i hyi
    exact ⟨hlt.trans_le h.size, (h.fibers i).active.trans ha⟩
  distinct := h.chain ▸ hm.distinct

/-- A fiber that is entered runs on its own thread. -/
theorem entered (hm : m.Ordered) (h : m.Enters id m') : m'.context.fiber = some id ∧ m'.context.Owes m'.context.mark := by
  rcases h.context with hc | ⟨-, hf, hk⟩
  · exact hm.stored id _ h.alive hc
  · exact ⟨hf, _, hk ▸ Mark.leads_refl _⟩

theorem enters (hm : m.Ordered) (ho : m.context.Owes m.context.mark) (h : m.Enters id m') :
    m'.Ordered ∧ m'.context.fiber = some id ∧ m'.context.Owes m'.context.mark := by
  have entered := hm.entered h
  have hchain : m'.chain = m'.context :: m.chain := congrArg (m'.context :: ·) h.waiting
  have away : ∀ x ∈ m.chain, x.fiber ≠ some id := fun x hx hi => by
    cases h.inactive.symm.trans (hm.live x hx id hi).2
  refine ⟨⟨h.numbered hm.numbered, fun x hx => ?_, fun i x hs hx => ?_, fun x hx i hi => ?_, ?_⟩, entered⟩
  · rcases List.mem_cons.mp (h.waiting ▸ hx) with rfl | hx
    · exact ho
    · exact hm.waiting x hx
  · by_cases hi : i = id
    · subst hi
      cases h.entered.symm.trans hx
    · rw [h.others i hi] at hs hx
      exact hm.stored i x hs hx
  · rw [h.size]
    rcases List.mem_cons.mp (hchain ▸ hx) with rfl | hx
    · cases entered.1.symm.trans hi
      exact ⟨h.there, h.active⟩
    · have hne : i ≠ id := fun he => away x hx (he ▸ hi)
      rw [h.others i hne]
      exact hm.live x hx i hi
  · rw [hchain, List.map_cons, List.nodup_cons]
    refine ⟨fun hmem => ?_, hm.distinct⟩
    obtain ⟨x, hx, hxf⟩ := List.mem_map.mp hmem
    exact away x hx (hxf.trans entered.1)

theorem leaves (hm : m.Ordered) (ho : m.context.Owes m.context.mark ∨ (m'.fibers.getD id default).state = .dead)
    (h : m.Leaves id m') : m'.Ordered ∧ m'.context.Owes m'.context.mark := by
  have hchain : m.chain = m.context :: m'.chain := congrArg (m.context :: ·) h.waiting
  have distinct := hm.distinct
  rw [hchain, List.map_cons, List.nodup_cons] at distinct
  have away : ∀ x ∈ m'.chain, x.fiber ≠ some id := fun x hx hi =>
    distinct.1 (List.mem_map.mpr ⟨x, hx, hi.trans h.fiber.symm⟩)
  have hid : id < m.fibers.size := (hm.live _ List.mem_cons_self id h.fiber).1
  refine ⟨⟨h.numbered hm.numbered, fun x hx => hm.waiting x (h.waiting ▸ List.mem_cons_of_mem _ hx),
    fun i x hs hx => ?_, fun x hx i hi => ?_, distinct.2⟩, hm.waiting _ (h.waiting ▸ List.mem_cons_self)⟩
  · by_cases hi : i = id
    · subst hi
      rcases h.left hid with hd | hc
      · exact absurd hd hs
      · cases hc.symm.trans hx
        exact ⟨h.fiber, ho.resolve_right hs⟩
    · rw [h.others i hi] at hs hx
      exact hm.stored i x hs hx
  · have hne : i ≠ id := fun he => away x hx (he ▸ hi)
    rw [h.size, h.others i hne]
    exact hm.live x (hchain ▸ List.mem_cons_of_mem _ hx) i hi

/-- Whatever follows, the machine stays in order. -/
theorem goes (hm : m.Ordered) (ho : m.context.Owes p) (h : m.Goes p b c m') : m'.Ordered ∧ m'.Ready c := by
  cases h with
  | on hd hf => exact ⟨hm.defers hd, hf, hd.owes ho⟩
  | enter hd he hd' hf =>
    obtain ⟨hm₂, -, ho₂⟩ := (hm.defers hd).enters (hd.owes ho) he
    exact ⟨hm₂.defers hd', hf, hd'.owes ho₂⟩
  | suspend hd hl =>
    obtain ⟨hm', ho'⟩ := (hm.defers hd).leaves (.inl (hd.owes ho)) hl
    exact ⟨hm', trivial, ho'.of_meets (Context.exactMark_meets _)⟩
  | finish hd hl hx =>
    have hd₁ := hm.defers hd
    obtain ⟨hm', ho'⟩ := hd₁.leaves (.inr (hx (hd₁.live _ List.mem_cons_self _ hl.fiber).1)) hl
    exact ⟨hm', trivial, ho'.of_meets (Context.exactMark_meets _)⟩

theorem popKont {k : Kont} {rest : List Kont} (hm : m.Ordered) (hk : m.context.konts = k :: rest) :
    { m with context.konts := rest }.Ordered where
  numbered := (hm.numbered.popKont hk).1
  waiting := hm.waiting
  stored := hm.stored
  live x hx i hi := by
    rcases List.mem_cons.mp hx with rfl | hx
    · exact hm.live m.context List.mem_cons_self i hi
    · exact hm.live x (List.mem_cons_of_mem _ hx) i hi
  distinct := hm.distinct

theorem steady (hm : m.Ordered) (h : m.Steady m') : m'.Ordered := hm.defers (p := m.context.mark) (.of_steady h)

/-! ### Where machines come from -/

theorem of_idle (ho : ∀ id, ¬m.HasFiber id) (hc : m.context.fiber = none) (hk : m.context.konts = [])
    (hw : m.waiting = []) (hf : m.fibers = #[]) : m.Ordered := by
  have none_stored (i : Nat) (x : Context) : (m.fibers.getD i default).context ≠ some x := by
    rw [hf]
    exact fun h => nomatch h
  have chain : m.chain = [m.context] := congrArg (m.context :: ·) hw
  refine ⟨⟨fun id h => absurd h (ho id), fun id h => ?_, fun x hx => ?_, fun i x hx => absurd hx (none_stored i x)⟩,
    fun x hx => ?_, fun i x _ hx => absurd hx (none_stored i x), fun x hx id hi => ?_, ?_⟩
  · rw [hk] at h
    cases h
  · rw [hw] at hx
    cases hx
  · rw [hw] at hx
    cases hx
  · rw [chain, List.mem_singleton] at hx
    subst hx
    cases hc.symm.trans hi
  · rw [chain]
    exact List.nodup_singleton _

theorem blank (options : Options) : (Machine.blank options).Ordered :=
  of_idle (fun id ⟨p, c, h⟩ => by
    have hc : (Machine.blank options).heap.cellAt p c = {} := rfl
    rw [hc] at h
    cases h) rfl rfl rfl rfl

theorem boot (hm : m.Ordered) : (after Exec.boot m).Ordered ∧ (after Exec.boot m).context.konts = m.context.konts := by
  obtain ⟨-, -, -, hs, -⟩ := (Steady.logic m).boot (K := .anything 1) Nat.one_pos (Known.all_anything 1) m (.refl m)
  exact ⟨hm.steady hs, hs.konts⟩

/-- What an earlier run left undone may be forgotten. -/
theorem restart (hm : m.Ordered) : (after Exec.restart m).Ordered where
  numbered := { hm.numbered with running := fun _ h => nomatch h }
  waiting := hm.waiting
  stored := hm.stored
  live x hx i hi := by
    rcases List.mem_cons.mp hx with rfl | hx
    · exact hm.live m.context List.mem_cons_self i hi
    · exact hm.live x (List.mem_cons_of_mem _ hx) i hi
  distinct := hm.distinct

end Ordered

end Machine

end RubyMachine
