import RubyMachine.Proofs.Scope.Memory
import RubyMachine.Proofs.Threads.Entries

/-! Calls are balanced: however a call returns, its thread is left as it was promised. -/

namespace RubyMachine

/-- A call under way: the thread that made it, what is left to be done there after it, and how it leaves that. -/
structure Visit where
  fiber : Option Nat
  konts : List Kont
  mark : Mark

/-- The call that goes on with `c`. -/
def Control.visit (c : Control) (m : Machine) : Visit := ⟨m.context.fiber, m.context.konts, c.mark m.context⟩

/-- A thread is in a call, which will have kept what it promised when something marked `q` comes back. -/
def Context.On (x : Context) (v : Visit) (q : Mark) : Prop :=
  x.fiber = v.fiber ∧ ∃ ks, x.konts = ks ++ v.konts ∧ q.Leads ks v.mark

theorem Context.On.of_meets {x : Context} {v : Visit} {p q : Mark} (h : x.On v q) (hp : p.Meets q) : x.On v p := by
  obtain ⟨hf, ks, hk, hl⟩ := h
  exact ⟨hf, ks, hk, hl.of_meets hp⟩

namespace Visit

structure Returned (v : Visit) (c : Control) (m : Machine) : Prop where
  outcome : ∃ r, c = .deliver r
  fiber : m.context.fiber = v.fiber
  konts : m.context.konts = v.konts

/-- The threads that wait for the one that made a call, as they were when it last came to run. -/
def waiters (v : Visit) (W : List Context) (m m' : Machine) : List Context :=
  if v.fiber ∈ m.chain.map Context.fiber then W else m'.waiting

/-- What happens until a call returns, with the threads that waited for the one that made it when it last came
to run. -/
inductive Run (v : Visit) : List Context → Control → Machine → List Context → Control → Machine → Prop where
  | refl {W : List Context} {c : Control} {m : Machine} : Run v W c m W c m
  | next {W W' : List Context} {c c₁ c₂ : Control} {m m₁ m₂ : Machine} : Run v W c m W' c₁ m₁ → ¬v.Returned c₁ m₁ →
      Next c₁ m₁ c₂ m₂ → Run v W c m (v.waiters W' m₁ m₂) c₂ m₂

/-- Where the thread is that made a call: it runs, it waits for others, or it was put aside. -/
inductive During (v : Visit) (W : List Context) (p : Mark) (m : Machine) : Prop where
  | running : m.context.On v p → m.waiting = W → During v W p m
  | waiting {ws : List Context} {x : Context} : m.waiting = ws ++ x :: W → x.On v x.mark → During v W p m
  | aside {id : Nat} : v.fiber = some id → id < m.fibers.size → some id ∉ m.chain.map Context.fiber →
      ((m.fibers.getD id default).state = .dead ∨ ∃ x, (m.fibers.getD id default).context = some x ∧ x.On v x.mark) →
      During v W p m

open Machine

variable {v : Visit} {W W' : List Context} {p q : Mark} {m m' m₁ : Machine} {c c' : Control} {id : Nat}

namespace During

theorem defers (h : v.During W p m) (hd : m.Defers p m' q) : v.During W q m' := by
  cases h with
  | running hon hw =>
    obtain ⟨hf, ks, hk, hl⟩ := hon
    obtain ⟨ks', hk', hl', -⟩ := hd.konts
    exact .running ⟨hd.fiber.trans hf, ks' ++ ks, by rw [hk', hk, List.append_assoc], hl'.append hl⟩ (hd.waiting.trans hw)
  | waiting hw hon => exact .waiting (hd.waiting.trans hw) hon
  | @aside id hf hlt haway hstored =>
    refine .aside hf (hlt.trans_le hd.size) (hd.chain ▸ haway) ?_
    rcases hstored with hdead | ⟨x, hx, hon⟩
    · exact .inl ((hd.fibers id).dead hdead)
    · rcases (hd.fibers id).context with hc | ⟨-, hdead⟩
      · exact .inr ⟨x, hc.trans hx, hon⟩
      · exact .inl hdead

/-- A thread that is not in the chain was put aside, whoever waits. -/
theorem waiters (h : v.During W p m) (m' : Machine) : v.During (v.waiters W m m') p m := by
  unfold Visit.waiters
  split
  · exact h
  · rename_i haway
    cases h with
    | running hon _ => exact absurd (List.mem_map.mpr ⟨_, List.mem_cons_self, hon.1⟩) haway
    | waiting hw hon =>
      refine absurd (List.mem_map.mpr ⟨_, List.mem_cons_of_mem _ ?_, hon.1⟩) haway
      exact hw ▸ List.mem_append_right _ List.mem_cons_self
    | aside hf hlt haway hstored => exact .aside hf hlt haway hstored

theorem enters (hm : m.Ordered) (h : v.During W m.context.mark m) (he : m.Enters id m') :
    v.During (v.waiters W m m') m'.context.mark m' := by
  cases h.waiters m' with
  | running hon hw => exact .waiting (show m'.waiting = [] ++ m.context :: _ from hw ▸ he.waiting) hon
  | @waiting ws x hw hon =>
    exact .waiting (show m'.waiting = m.context :: ws ++ x :: _ from he.waiting.trans (congrArg (m.context :: ·) hw)) hon
  | @aside i hf hlt haway hstored =>
    by_cases hi : i = id
    · subst hi
      obtain ⟨x, hx, hon⟩ := hstored.resolve_left he.alive
      refine .running ?_ (if_neg (hf ▸ haway)).symm
      rcases he.context with hc | ⟨hc, -⟩
      · cases hc.symm.trans hx
        exact hon
      · cases hc.symm.trans hx
    · refine .aside hf (he.size ▸ hlt) ?_ (he.others i hi ▸ hstored)
      have hchain : m'.chain = m'.context :: m.chain := congrArg (m'.context :: ·) he.waiting
      rw [hchain, List.map_cons, List.mem_cons, not_or]
      refine ⟨fun hc => hi ?_, haway⟩
      exact Option.some_injective _ (hc.trans (hm.entered he).1)

theorem leaves (hm : m.Ordered) (h : v.During W p m) (hl : m.Leaves id m')
    (hp : p = m.context.mark ∨ (id < m.fibers.size → (m'.fibers.getD id default).state = .dead)) :
    v.During W m'.context.exactMark m' := by
  have hid : id < m.fibers.size := (hm.live _ List.mem_cons_self id hl.fiber).1
  have hchain : m.chain = m.context :: m'.chain := congrArg (m.context :: ·) hl.waiting
  have distinct := hm.distinct
  rw [hchain, List.map_cons, List.nodup_cons, hl.fiber] at distinct
  cases h with
  | running hon hw =>
    refine .aside (hon.1.symm.trans hl.fiber) (hl.size ▸ hid) distinct.1 ?_
    rcases hp with rfl | hdead
    · exact (hl.left hid).imp_right fun hc => ⟨_, hc, hon⟩
    · exact .inl (hdead hid)
  | @waiting ws x hw hon =>
    have hw := hl.waiting.symm.trans hw
    cases ws with
    | nil =>
      obtain ⟨rfl, hrest⟩ := List.cons.inj (hw.trans (List.nil_append _))
      exact .running (hon.of_meets (Context.exactMark_meets _)) hrest
    | cons y ws => exact .waiting (List.cons.inj hw).2 hon
  | @aside i hf hlt haway hstored =>
    rw [hchain, List.map_cons, List.mem_cons, not_or, hl.fiber] at haway
    have hi : i ≠ id := fun hi => haway.1 (congrArg some hi)
    exact .aside hf (hl.size ▸ hlt) haway.2 (hl.others i hi ▸ hstored)

theorem goes {b : Bool} (hm : m.Ordered) (h : v.During W p m) (hg : m.Goes p b c m') :
    v.During (v.waiters W m m') (c.mark m'.context) m' := by
  have h := h.waiters m'
  cases hg with
  | on hd _ => exact h.defers hd
  | @enter _ m₁ m₂ _ _ hd he hd' _ =>
    have entered := (h.defers hd).enters (hm.defers hd) he
    have same : v.waiters (v.waiters W m m') m₁ m₂ = v.waiters W m m' := by
      unfold Visit.waiters
      rw [hd.chain, hd'.waiting]
      split <;> rfl
    exact (same ▸ entered).defers hd'
  | suspend hd hl => exact (h.defers hd).leaves (hm.defers hd) hl (.inl rfl)
  | finish hd hl hx => exact (h.defers hd).leaves (hm.defers hd) hl (.inr hx)

/-- What is left to be done after a call is not taken up before the call has returned. -/
theorem popKont {k : Kont} {rest : List Kont} {r : Except Failure Value} (h : v.During W m.context.exactMark m)
    (hk : m.context.konts = k :: rest) (hn : ¬v.Returned (.deliver r) m) :
    v.During W (k.after m.context.exactMark) { m with context.konts := rest } := by
  cases h with
  | running hon hw =>
    obtain ⟨hf, ks, hks, hl⟩ := hon
    cases ks with
    | nil => exact absurd ⟨⟨r, rfl⟩, hf, hks⟩ hn
    | cons k' ks =>
      obtain ⟨rfl, rfl⟩ := List.cons.inj (hk.symm.trans hks)
      exact .running ⟨hf, ks, rfl, hl.2⟩ hw
  | waiting hw hon => exact .waiting hw hon
  | aside hf hlt haway hstored => exact .aside hf hlt haway hstored

/-- Whatever comes next, the call goes on until it has returned. -/
theorem next (hm : m.Ordered) (hc : m.Ready c) (h : v.During W (c.mark m.context) m) (hn : ¬v.Returned c m)
    (hx : Next c m c' m') : v.During (v.waiters W m m') (c'.mark m'.context) m' := by
  rcases hx.goes hm.numbered hc.fits with hg | ⟨r, k, rest, rfl, hk, hg⟩
  · exact h.goes hm hg
  · obtain ⟨q, ho⟩ := hc.owes
    rw [hk] at ho
    exact (h.popKont hk hn).goes (m := { m with context.konts := rest }) (hm.popKont hk) (hg ho.1)

theorem start (c : Control) (m : Machine) : (c.visit m).During m.waiting (c.mark m.context) m :=
  .running ⟨rfl, [], rfl, Mark.leads_refl _⟩ rfl

/-- When the thread runs that made the call, it goes on with it. -/
theorem on_running (hm : m.Ordered) (h : v.During W p m) (hf : m.context.fiber = v.fiber) :
    m.context.On v p ∧ m.waiting = W := by
  cases h with
  | running hon hw => exact ⟨hon, hw⟩
  | @waiting ws x hw hon =>
    have distinct := hm.distinct
    rw [Machine.chain, List.map_cons, List.nodup_cons] at distinct
    refine absurd (List.mem_map.mpr ⟨x, ?_, hon.1.trans hf.symm⟩) distinct.1
    exact hw ▸ List.mem_append_right _ List.mem_cons_self
  | @aside id hid _ haway _ => exact absurd (List.mem_map.mpr ⟨m.context, List.mem_cons_self, hf.trans hid⟩) haway

/-- A call that has returned has kept its promise, and its thread runs above those that it ran above last. -/
theorem returned (hm : m.Ordered) (h : v.During W (c.mark m.context) m) (hr : v.Returned c m) :
    m.context.exactMark.Meets v.mark ∧ m.waiting = W := by
  obtain ⟨⟨r, rfl⟩, hf, hk⟩ := hr
  obtain ⟨⟨-, ks, hks, hl⟩, hw⟩ := h.on_running hm hf
  cases List.append_left_eq_self.mp (hks.symm.trans hk)
  exact ⟨hl, hw⟩

end During

theorem Run.during (hr : v.Run W c m W' c' m') (hm : m.Ordered) (hc : m.Ready c) (h : v.During W (c.mark m.context) m) :
    m'.Ordered ∧ m'.Ready c' ∧ v.During W' (c'.mark m'.context) m' := by
  induction hr with
  | refl => exact ⟨hm, hc, h⟩
  | next _ hn hx ih =>
    obtain ⟨hm₁, hc₁, h₁⟩ := ih hm hc h
    obtain ⟨hm₂, hc₂⟩ := hm₁.next hc₁ hx
    exact ⟨hm₂, hc₂, h₁.next hm₁ hc₁ hn hx⟩

end Visit

end RubyMachine
