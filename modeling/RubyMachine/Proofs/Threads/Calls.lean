import RubyMachine.Proofs.Threads.Marks

/-! Calls and what they promise. -/

namespace RubyMachine

namespace Machine

/-- On the same thread, more is left to be done: what comes back to `m'` with the mark `q` comes back to `m` with
the mark `p`. -/
structure Defers (m : Machine) (p : Mark) (m' : Machine) (q : Mark) : Prop where
  fiber : m'.context.fiber = m.context.fiber
  waiting : m'.waiting = m.waiting
  size : m.fibers.size ≤ m'.fibers.size
  fibers : ∀ i, (m.fibers.getD i default).Kept (m'.fibers.getD i default)
  objects : ∀ id, m'.HasFiber id → m.HasFiber id ∨ id < m'.fibers.size
  konts : ∃ ks, m'.context.konts = ks ++ m.context.konts ∧ q.Leads ks p ∧ ∀ id ∈ drivenFibers ks, id < m'.fibers.size

/-- The running thread waits for a fiber, which starts or goes on where it stopped. -/
structure Enters (m : Machine) (id : Nat) (m' : Machine) : Prop where
  there : id < m.fibers.size
  inactive : (m.fibers.getD id default).active = false
  alive : (m.fibers.getD id default).state ≠ .dead
  context : (m.fibers.getD id default).context = some m'.context ∨
    (m.fibers.getD id default).context = none ∧ m'.context.fiber = some id ∧ m'.context.konts = []
  waiting : m'.waiting = m.context :: m.waiting
  size : m'.fibers.size = m.fibers.size
  objects : ∀ id, m'.HasFiber id → m.HasFiber id
  active : (m'.fibers.getD id default).active = true
  entered : (m'.fibers.getD id default).context = none
  others : ∀ i, i ≠ id → m'.fibers.getD i default = m.fibers.getD i default

/-- The running fiber is left for the thread that waits for it: it stops where it is, or ends. -/
structure Leaves (m : Machine) (id : Nat) (m' : Machine) : Prop where
  fiber : m.context.fiber = some id
  waiting : m.waiting = m'.context :: m'.waiting
  size : m'.fibers.size = m.fibers.size
  objects : ∀ id, m'.HasFiber id → m.HasFiber id
  left : id < m.fibers.size → (m'.fibers.getD id default).state = .dead ∨
    (m'.fibers.getD id default).context = some m.context
  dead : (m.fibers.getD id default).state = .dead → (m'.fibers.getD id default).state = .dead
  own : ∀ x, (m'.fibers.getD id default).context = some x → (m.fibers.getD id default).context = some x ∨
    x.fiber = some id ∧ (x.konts = m.context.konts ∨ x.konts = [])
  others : ∀ i, i ≠ id → m'.fibers.getD i default = m.fibers.getD i default

/-- What follows, given that the thread that runs in `m` comes back with the mark `p`; without `switch`, it is
the thread that goes on. -/
inductive Goes (m : Machine) (p : Mark) : (switch : Bool) → Control → Machine → Prop where
  | on {b : Bool} {c : Control} {m' : Machine} : m.Defers p m' (c.mark m'.context) → c.Fits m'.context →
      Goes m p b c m'
  /-- A fiber goes on, and the thread waits. -/
  | enter {c : Control} {m₁ m₂ m' : Machine} {id : Nat} : m.Defers p m₁ m₁.context.mark → m₁.Enters id m₂ →
      m₂.Defers m₂.context.mark m' (c.mark m'.context) → c.Fits m'.context → Goes m p true c m'
  /-- The thread is put aside, and the one that waited goes on. -/
  | suspend {r : Except Failure Value} {m₁ m' : Machine} {id : Nat} : m.Defers p m₁ m₁.context.mark →
      m₁.Leaves id m' → Goes m p true (.deliver r) m'
  /-- The thread is over, and the one that waited goes on. -/
  | finish {r : Except Failure Value} {m₁ m' : Machine} {q : Mark} {id : Nat} : m.Defers p m₁ q →
      m₁.Leaves id m' → (id < m₁.fibers.size → (m'.fibers.getD id default).state = .dead) →
      Goes m p true (.deliver r) m'

variable {m m' m₁ m₂ : Machine} {p q r : Mark} {c : Control}

namespace Defers

theorem of_eq (hm : m'.context.fiber = m.context.fiber) (hk : m'.context.konts = m.context.konts)
    (hw : m'.waiting = m.waiting) (hf : m'.fibers = m.fibers) (hh : m'.heap = m.heap) (hq : q.Meets p) : m.Defers p m' q where
  fiber := hm
  waiting := hw
  size := hf ▸ le_rfl
  fibers _ := hf ▸ .refl _
  objects id h := .inl (by
    unfold HasFiber at h
    rwa [hh] at h)
  konts := ⟨[], hk, hq, fun _ h => nomatch h⟩

theorem refl (m : Machine) (p : Mark) : m.Defers p m p := of_eq rfl rfl rfl rfl rfl (.refl p)

theorem of_meets (hq : q.Meets p) : m.Defers p m q := of_eq rfl rfl rfl rfl rfl hq

theorem of_steady (h : m.Steady m') : m.Defers p m' p :=
  ⟨h.fiber, h.waiting, h.size, h.fibers, h.objects, [], h.konts, .refl p, fun _ h => nomatch h⟩

theorem of_kont {k : Kont} (hk : k.Accepts q) (hq : (k.after q).Meets p)
    (hd : ∀ id ∈ drivenFibers [k], id < m.fibers.size) :
    m.Defers p { m with context.konts := k :: m.context.konts } q :=
  ⟨rfl, rfl, le_rfl, fun _ => .refl _, fun _ => .inl, [k], rfl, ⟨hk, hq⟩, hd⟩

theorem trans (h : m.Defers p m₁ q) (h' : m₁.Defers q m₂ r) : m.Defers p m₂ r where
  fiber := h'.fiber.trans h.fiber
  waiting := h'.waiting.trans h.waiting
  size := h.size.trans h'.size
  fibers i := (h.fibers i).trans (h'.fibers i)
  objects id hid := (h'.objects id hid).elim (fun h₁ => (h.objects id h₁).imp_right fun hs => hs.trans_le h'.size) .inr
  konts := by
    obtain ⟨ks, hk, hl, hd⟩ := h.konts
    obtain ⟨ks', hk', hl', hd'⟩ := h'.konts
    refine ⟨ks' ++ ks, by rw [hk', hk, List.append_assoc], hl'.append hl, fun id hid => ?_⟩
    rw [drivenFibers, List.filterMap_append] at hid
    exact (List.mem_append.mp hid).elim (hd' id) fun hid => (hd id hid).trans_le h'.size

theorem numbered (h : m.Defers p m' q) (hn : m.Numbered) : m'.Numbered where
  objects i hi := (h.objects i hi).elim (fun h₁ => (hn.objects i h₁).trans_le h.size) id
  running id hid := by
    obtain ⟨ks, hk, -, hd⟩ := h.konts
    rw [hk, drivenFibers, List.filterMap_append] at hid
    exact (List.mem_append.mp hid).elim (hd id) (hn.running.mono h.size id)
  waiting x hx := (hn.waiting x (h.waiting ▸ hx)).mono h.size
  stored i x hx := by
    rcases (h.fibers i).context with hc | ⟨hc, -⟩
    · exact (hn.stored i x (hc ▸ hx)).mono h.size
    · cases hc.symm.trans hx

end Defers

theorem Enters.numbered {id : Nat} (h : m.Enters id m') (hn : m.Numbered) : m'.Numbered where
  objects i hi := h.size ▸ hn.objects i (h.objects i hi)
  running := by
    rw [h.size]
    rcases h.context with hc | ⟨-, -, hk⟩
    · exact hn.stored id _ hc
    · intro i hi
      rw [hk] at hi
      cases hi
  waiting x hx := by
    rw [h.size]
    rw [h.waiting] at hx
    rcases List.mem_cons.mp hx with rfl | hx
    · exact hn.running
    · exact hn.waiting x hx
  stored i x hx := by
    rw [h.size]
    by_cases hi : i = id
    · subst hi
      cases h.entered.symm.trans hx
    · exact hn.stored i x (h.others i hi ▸ hx)

theorem Leaves.numbered {id : Nat} (h : m.Leaves id m') (hn : m.Numbered) : m'.Numbered where
  objects i hi := h.size ▸ hn.objects i (h.objects i hi)
  running := h.size ▸ hn.waiting _ (h.waiting ▸ List.mem_cons_self)
  waiting x hx := h.size ▸ hn.waiting x (h.waiting ▸ List.mem_cons_of_mem _ hx)
  stored i x hx := by
    rw [h.size]
    by_cases hi : i = id
    · subst hi
      rcases h.own x hx with hc | ⟨-, hk | hk⟩
      · exact hn.stored i x hc
      · unfold Context.Drives
        rw [hk]
        exact hn.running
      · unfold Context.Drives
        rw [hk]
        exact fun _ hi => nomatch hi
    · exact hn.stored i x (h.others i hi ▸ hx)

theorem Goes.of_defers {b : Bool} (h : m.Defers p m₁ q) (hg : m₁.Goes q b c m') : m.Goes p b c m' := by
  cases hg with
  | on hd hf => exact .on (h.trans hd) hf
  | enter hd he hd' hf => exact .enter (h.trans hd) he hd' hf
  | suspend hd hl => exact .suspend (h.trans hd) hl
  | finish hd hl hx => exact .finish (h.trans hd) hl hx

end Machine

/-! ## What computations come to -/

namespace Exec

/-- What comes next keeps the promise `p` of the thread that runs in `m`. -/
def Calls (switch : Bool) (x : Exec Control) (p : Mark) (m : Machine) : Prop :=
  m.Numbered → ∀ c m', x m = .ok c m' → m.Goes p switch c m'

variable {α : Type} {b : Bool} {p q : Mark} {m : Machine} {x : Exec α} {f : α → Exec Control}

namespace Calls

theorem bind (hx : ∀ a m', x m = .ok a m' → ∃ q, m.Defers p m' q ∧ Calls b (f a) q m') : Calls b (x >>= f) p m := by
  intro hn c m' h
  obtain ⟨a, m₁, ha, h₁⟩ := exists_of_bind h
  obtain ⟨q, hd, hf⟩ := hx a m₁ ha
  exact (hf (hd.numbered hn) c m' h₁).of_defers hd

/-- Goes on after a steady computation. -/
theorem go (hx : x.Stays) (hf : ∀ a m', x m = .ok a m' → m.Steady m' → Calls b (f a) p m') : Calls b (x >>= f) p m :=
  bind fun a m' h => ⟨p, .of_steady (hx m a m' h), hf a m' h (hx m a m' h)⟩

theorem ready {c : Control} (hc : (c.mark m.context).Meets p) (hf : c.Fits m.context) :
    Calls b (pure c) p m := by
  intro _ c' m' h
  cases h
  exact .on (.of_meets hc) hf

theorem deliver (r : Except Failure Value) (hp : m.context.exactMark.Meets p) :
    Calls b (pure (.deliver r)) p m :=
  ready hp trivial

/-- Something is left to be done when what follows comes back with the mark `q`. -/
theorem pushKont {k : Kont} {f : Unit → Exec Control} (hk : k.Accepts q) (hq : (k.after q).Meets p)
    (hd : ∀ id ∈ drivenFibers [k], id < m.fibers.size)
    (hf : Calls b (f ()) q { m with context.konts := k :: m.context.konts }) : Calls b (Exec.pushKont k >>= f) p m :=
  bind fun _ _ h => by
    cases h
    exact ⟨q, .of_kont hk hq hd, hf⟩

end Calls

/-! ## The stack -/

theorem lift_ok {e : Except Defect α} {a : α} {m' : Machine} (h : (liftM e : Exec α) m = .ok a m') :
    e = .ok a ∧ m' = m := by
  cases e with
  | ok b =>
    cases h
    exact ⟨rfl, rfl⟩
  | error d => cases h

theorem push_ok {v : Value} {u : Unit} {m' : Machine} (h : push v m = .ok u m') :
    m' = { m with context.stack := m.context.stack.append v } := by
  obtain ⟨s, _, hs, h₁⟩ := exists_of_bind h
  cases hs
  obtain ⟨_, _, hc, h₂⟩ := exists_of_bind h₁
  obtain ⟨_, rfl⟩ := lift_ok hc
  cases h₂
  rfl

theorem grow_ok {n : Int} {u : Unit} {m' : Machine} (hn : 0 ≤ n) (h : grow n m = .ok u m') :
    m' = { m with context.stack := m.context.stack.appendAll (List.replicate n.toNat .nil) } := by
  obtain ⟨s, _, hs, h₁⟩ := exists_of_bind h
  cases hs
  obtain ⟨_, _, hc, h₂⟩ := exists_of_bind h₁
  obtain ⟨_, rfl⟩ := lift_ok hc
  rw [if_pos hn] at h₂
  cases h₂
  rfl

/-- A stack is as long as it was asked to be. -/
theorem resize_ok {n : Int} {u : Unit} {m' : Machine} (h : resize n m = .ok u m') :
    ∃ s, m' = { m with context.stack := s } ∧ (s.len : Int) = n := by
  obtain ⟨s, _, hs, h₁⟩ := exists_of_bind h
  cases hs
  dsimp only at h₁
  split at h₁
  · cases h₁
  split at h₁
  · refine ⟨_, grow_ok (by omega) h₁, ?_⟩
    simp only [Stack.appendAll, List.length_replicate]
    omega
  · cases h₁
    refine ⟨_, rfl, ?_⟩
    simp only [Stack.cut]
    omega

theorem extend_stays (vs : List Value) : (extend vs).Stays :=
  stays_of_keeping 0 fun m => (Machine.Steady.logic m).extend fun _ _ => trivial

theorem pushCall_ok {receiver : Value} {args : List Value} {base : Int} {m' : Machine}
    (h : pushCall receiver args m = .ok base m') : m.Steady m' ∧ base = m.context.stack.len + 1 := by
  obtain ⟨_, m₁, hp, h₁⟩ := exists_of_bind h
  obtain ⟨b, _, hb, h₂⟩ := exists_of_bind h₁
  cases hb
  obtain ⟨_, m₂, he, h₃⟩ := exists_of_bind h₂
  cases h₃
  have hs := extend_stays args m₁ _ _ he
  rw [push_ok hp] at hs ⊢
  have pushed : m.Steady { m with context.stack := m.context.stack.append receiver } := .of_stack _ rfl rfl rfl rfl
  exact ⟨pushed.trans hs, rfl⟩

/-! ## Calls -/

open Keeping

theorem context_of_kept {x : Exec α} {a : α} {m' : Machine} (hx : Kept (fun m' => m'.context = m.context) x)
    (h : x m = .ok a m') : m'.context = m.context := by
  have := hx m rfl
  rwa [after_of_ok h] at this

/-- What is pushed for a call goes with it. -/
theorem pushed_calls {next : Int → Control} {receiver : Value} {args : List Value}
    (hn : ∀ base x, (next base).mark x = x.mark.cut (base - 1)) (hf : ∀ base x, (next base).Fits x)
    (hp : m.context.exactMark.Meets p) : Calls b (do
      let base ← pushCall receiver args
      return next base) p m := by
  refine Calls.bind fun base m' h => ?_
  obtain ⟨hs, rfl⟩ := pushCall_ok h
  refine ⟨p, .of_steady hs, .ready ?_ (hf _ _)⟩
  rw [hn, Int.add_sub_cancel, Context.mark, hs.frame, hs.temps]
  exact hp

theorem boundary_calls {f : Unit → Exec Control}
    (hf : ∀ m', m'.context.exactMark = m.context.exactMark → Calls b (f ()) p m') : Calls b (markBoundary >>= f) p m := by
  refine Calls.bind fun _ m' h => ?_
  unfold markBoundary at h
  obtain ⟨fr, _, hfr, h₁⟩ := exists_of_bind h
  cases hfr
  split at h₁
  · cases h₁
    exact ⟨p, .of_kont trivial (.refl p) (fun _ h => nomatch h), hf _ rfl⟩
  · cases h₁
    exact ⟨p, .refl _ p, hf _ rfl⟩

theorem callDirect_calls (fn : FnId) (receiver : Value) (args : List Value) (hp : m.context.exactMark.Meets p) :
    Calls b (callDirect fn receiver args) p m :=
  pushed_calls (fun _ _ => rfl) (fun _ _ => trivial) hp

theorem callBlock_calls (blk : Option Block) (args : List Value) (hp : m.context.exactMark.Meets p) :
    Calls b (callBlock blk args) p m := by
  cases blk with
  | none => exact .deliver _ hp
  | some _ => exact boundary_calls fun m' h => pushed_calls (fun _ _ => rfl) (fun _ _ => trivial) (h ▸ hp)

/-- Goes on after a steady computation that does not even change the stack. -/
theorem Calls.still (hx : x.Stays) (hk : Kept (fun m' => m'.context = m.context) x)
    (hf : ∀ a m', m'.context = m.context → Calls b (f a) p m') : Calls b (x >>= f) p m :=
  .go hx fun a m' h _ => hf a m' (context_of_kept hk h)

theorem kept_lookup (m : Machine) (cls : Nat) (name : Ident) :
    Kept (fun m' => m'.context = m.context) (findMethod? cls name) := by
  intro m' hm
  simp only [after, findMethod?, modifyGet_apply]
  split <;> exact hm

theorem classOf_stays (v : Value) : (classOf v).Stays :=
  stays_of_keeping 0 fun m => (Machine.Steady.logic m).classOf trivial

theorem findMethod_stays (cls : Nat) (name : Ident) : (findMethod? cls name).Stays :=
  stays_of_keeping 0 fun m => (Machine.Steady.logic m).findMethod?

theorem noMethod_stays (name : Ident) (v : Value) : (noMethod name v).Stays :=
  stays_of_keeping 0 fun m => (Machine.Steady.logic m).noMethod name trivial

theorem send_calls (name : Ident) (receiver : Value) (args : List Value) (kw : Value) (blk : Option Block)
    (hp : m.context.exactMark.Meets p) : Calls b (send name receiver args kw blk) p m := by
  refine .still (classOf_stays _) (kept_classOf _) fun cls m₁ h₁ => ?_
  rw [← h₁] at hp
  refine .still (findMethod_stays _ _) (kept_lookup _ _ _) fun r m₂ h₂ => ?_
  rw [← h₂] at hp
  cases r with
  | none =>
    refine .still (noMethod_stays _ _) (kept_noMethod _ _) fun f m₃ h₃ => ?_
    exact .deliver _ (h₃ ▸ hp)
  | some fn => exact boundary_calls fun m' h => pushed_calls (fun _ _ => rfl) (fun _ _ => trivial) (h ▸ hp)

/-! ## Calls whose outcome is gone on with -/

theorem sendOn (name : Ident) (receiver : Value) (args : List Value) (kw : Value) (blk : Option Block)
    (hp : m.context.mark = p) : Calls b (send name receiver args kw blk) p m :=
  send_calls _ _ _ _ _ (hp ▸ m.context.exactMark_meets)

theorem blockOn (blk : Option Block) (args : List Value) (hp : m.context.mark = p) :
    Calls b (callBlock blk args) p m :=
  callBlock_calls _ _ (hp ▸ m.context.exactMark_meets)

/-- Something that gives what it is given is left to be done. -/
theorem pushOn {k : Kont} {f : Unit → Exec Control} (hk : k.Accepts p) (ha : k.after p = p)
    (hd : drivenFibers [k] = []) (hf : ∀ m' : Machine, m'.context.mark = m.context.mark → Calls b (f ()) p m') :
    Calls b (pushKont k >>= f) p m :=
  .pushKont hk (by rw [ha]; exact .refl p) (fun _ h => by rw [hd] at h; cases h) (hf _ rfl)

theorem sendOperatorOn (name : Ident) (negated : Bool) (lhs rhs : Value) (hp : m.context.mark = p) :
    Calls b (sendOperator name negated lhs rhs) p m := by
  subst hp
  unfold sendOperator
  dsimp only
  split
  · exact pushOn trivial rfl rfl fun m' h => sendOn _ _ _ _ _ h
  · exact sendOn _ _ _ _ _ rfl

end Exec

end RubyMachine
