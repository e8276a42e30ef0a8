import Mathlib.Logic.Relation
import RubyMachine.Machine.Instructions
import RubyMachine.Proofs.Machine.Collections
import RubyMachine.Proofs.Machine.Operators
import RubyMachine.Proofs.Scope.Moves

/-! Literals that are pushed. A string is copied each time, so that it stays what it is whatever is done to the copies
(`literal_exact`). Other literals are pushed themselves, and what is done to one that can change is seen the next time
(`literal_appended`). -/

namespace RubyMachine

open Exec Relation

variable {m m' : Machine} {s : Site} {c v w : Value} {o : Object} {t : String} {vs : List Value}

/-! ## One instruction -/

/-- The instruction pushes the literal `c`. -/
structure Site.Pushes (s : Site) (c : Value) : Prop where
  op : s.op = .constVal
  literal : ∃ n : UInt32, s.act.seq.code.u32At? (s.pc + 1) = some n ∧ s.act.seq.consts[n.toNat]? = some c

namespace Site.Pushes

theorem perform_eq (h : s.Pushes c) (m : Machine) : s.perform.run m = (do
    match ← asString? c with
    | some t => push (← newString t)
    | none => push c
    return .next : Attempt Effect).run m := by
  obtain ⟨act, pc, op⟩ := s
  obtain ⟨rfl, n, hn, hc⟩ := h
  have hcount : Site.count ⟨act, pc, .constVal⟩ 1 m = .ok n.toNat m := by
    rw [Site.count, Site.u32, hn]
    rfl
  have hliteral : Site.create.literal ⟨act, pc, .constVal⟩ n.toNat m = .ok c m := by
    rw [Site.create.literal, hc]
    rfl
  exact (Attempt.run_lift_bind hcount).trans (Attempt.run_lift_bind hliteral)

/-- What is no string is pushed itself. -/
theorem perform_shares (h : s.Pushes c) (hc : asString? c m = .ok none m)
    (hroom : m.context.stack.len < m.context.stack.capacity) :
    s.perform.run m = .ok (.ok .next) (m.withStack (m.context.stack.append c)) := by
  rw [h.perform_eq]
  exact (Attempt.run_lift_bind hc).trans (Attempt.run_lift_bind (push_apply c hroom))

/-- A string is copied: what is pushed is a new string with its text. -/
theorem perform_copies (h : s.Pushes c) (hi : m.heap.Inv) (hc : c.isRef = true)
    (hr : m.heap.read c.toRef = .ok (.string t)) (hroom : m.context.stack.len < m.context.stack.capacity) :
    (∃ v m', s.perform.run m = .ok (.ok .next) m' ∧ m'.context.stack = m.context.stack.append v ∧ m'.heap.Inv ∧
      m.KeepsObjects m' ∧ m'.heap.read v.toRef = .ok (.string t) ∧ ∀ o, m.heap.read v.toRef ≠ .ok o) ∨
    Heap.maxPages ≤ m.heap.pages.size ∧ ∃ m', s.perform.run m = .error (.heapExhausted m.heap.pages.size) m' := by
  rw [h.perform_eq, Attempt.run_lift_bind (asString?_apply hc hr)]
  rcases alloc_apply hi (.string t) with ⟨v, h', hrun, hv⟩ | ⟨hmax, hrun⟩
  · refine .inl ⟨v, (m.withHeap h').withStack (m.context.stack.append v), ?_, rfl, hv.inv,
      fun (w : Value) => hv.kept w.toRef, hv.read, hv.vacant⟩
    exact (Attempt.run_lift_bind hrun).trans (Attempt.run_lift_bind (push_apply v hroom))
  · exact .inr ⟨hmax, _, Attempt.run_lift_bind_error hrun⟩

end Site.Pushes

/-! ## Runs -/

namespace Machine

/-- The literals of a function are in use. -/
theorem Retains.literal {f : Function} {seq : Code.Sequence} (hf : f ∈ m.functions.functions.toList)
    (hseq : f.body = .code seq) (hc : c ∈ seq.consts.toList) (hr : c.isRef = true) : m.Retains c := by
  have hrefs : c ∈ f.refs := by
    rw [Function.refs, hseq]
    exact List.mem_append_left _ hc
  have hroot : c ∈ m.roots := by
    unfold Machine.roots
    exact List.mem_append_left _ (List.mem_append_right _ (List.mem_flatMap.2 ⟨f, hf, hrefs⟩))
  exact ⟨hr, .root hroot hr⟩

/-- What happens while the values `vs` were pushed for the literal `c`: it is pushed again, one of these values is changed
in any way, garbage is collected while the literal is in use, or anything else that leaves the literal. -/
inductive Uses (c : Value) : List Value × Machine → List Value × Machine → Prop
  | push {vs : List Value} {m m' : Machine} {s : Site} : s.Pushes c → m.context.stack.len < m.context.stack.capacity →
      s.perform.run m = .ok (.ok .next) m' → Uses c (vs, m) (m'.slot m.context.stack.len :: vs, m')
  | change {vs : List Value} {m : Machine} {v : Value} (f : Object → Object) : v ∈ vs →
      Uses c (vs, m) (vs, after (update v f) m)
  | collect {vs : List Value} {m m' : Machine} {col : Collection} : m.Retains c → Exec.collect m = .ok col m' →
      Uses c (vs, m) (vs, m')
  | other {vs : List Value} {m m' : Machine} : m'.heap.Inv →
      (∀ o, m.heap.read c.toRef = .ok o → m'.heap.read c.toRef = .ok o) → Uses c (vs, m) (vs, m')

/-- The literal is a string with its text, and nothing that was pushed for it is in its cell. -/
structure Guards (m : Machine) (c : Value) (t : String) (vs : List Value) : Prop where
  inv : m.heap.Inv
  read : m.heap.read c.toRef = .ok (.string t)
  apart : ∀ v ∈ vs, ¬ (c.toRef.page = v.toRef.page ∧ c.toRef.cell = v.toRef.cell)

theorem Uses.guards {p q : List Value × Machine} (hu : Uses c p q) (hc : c.isRef = true) (h : p.2.Guards c t p.1) :
    q.2.Guards c t q.1 := by
  obtain ⟨hi, hr, hapart⟩ := h
  cases hu with
  | @push vs m m' s hs hroom hrun =>
    rcases hs.perform_copies hi hc hr hroom with ⟨v, m₁, hrun', hstack, hinv, hkeep, hv, hvacant⟩ | ⟨-, m₁, hrun'⟩
    · cases hrun.symm.trans hrun'
      have hpushed : m'.slot m.context.stack.len = v := by
        rw [slot, hstack]
        exact (Stack.getD_store ..).trans (if_pos rfl)
      rw [hpushed]
      refine ⟨hinv, hkeep c _ hr, fun w hw hcell => ?_⟩
      rcases List.mem_cons.1 hw with rfl | hw
      · have hcell' := toRef_eq_of_read hv (hkeep c _ hr) hcell.1 hcell.2
        exact hvacant _ (hcell' ▸ hr)
      · exact hapart w hw hcell
    · rw [hrun] at hrun'
      cases hrun'
  | change f hv =>
    refine ⟨hi.update _ _, ?_, hapart⟩
    rw [read_after_update, if_neg (hapart _ hv), hr]
  | collect hretains hrun =>
    have hcol := collect_collected hi hrun
    exact ⟨hcol.heap, hcol.read c _ hretains hr, hapart⟩
  | other hi' hkeep => exact ⟨hi', hkeep _ hr, hapart⟩

/-- A string that is a literal is pushed as what it was from the start, whatever was done to the values that were pushed
before. -/
theorem literal_exact (hi : m.heap.Inv) (hc : c.isRef = true) (hr : m.heap.read c.toRef = .ok (.string t))
    (hrun : ReflTransGen (Uses c) ([], m) (vs, m')) (hs : s.Pushes c)
    (hroom : m'.context.stack.len < m'.context.stack.capacity) :
    (∃ v m'', s.perform.run m' = .ok (.ok .next) m'' ∧ m''.context.stack = m'.context.stack.append v ∧
      m''.heap.read v.toRef = .ok (.string t)) ∨
    Heap.maxPages ≤ m'.heap.pages.size ∧ ∃ m'', s.perform.run m' = .error (.heapExhausted m'.heap.pages.size) m'' := by
  have hguards : ∀ p, ReflTransGen (Uses c) ([], m) p → p.2.Guards c t p.1 := fun p hp => by
    induction hp with
    | refl => exact ⟨hi, hr, fun v hv => absurd hv List.not_mem_nil⟩
    | tail _ hu ih => exact hu.guards hc ih
  obtain ⟨hi', hr', -⟩ := hguards _ hrun
  rcases hs.perform_copies hi' hc hr' hroom with ⟨v, m'', hrun, hstack, -, -, hv, -⟩ | hfull
  · exact .inl ⟨v, m'', hrun, hstack, hv⟩
  · exact .inr hfull

/-- An array that is a literal is pushed itself: what is appended to it is there when it is pushed the next time. -/
theorem literal_appended {es : Array Value} (hs : s.Pushes c) (hc : c.isRef = true)
    (hr : m.heap.read c.toRef = .ok (.array es)) (hroom : m.context.stack.len + 1 < m.context.stack.capacity) (w : Value) :
    ∃ m₁ m₂, s.perform.run m = .ok (.ok .next) m₁ ∧ m₁.context.stack = m.context.stack.append c ∧
      s.perform.run (after (appendElem c w) m₁) = .ok (.ok .next) m₂ ∧
      m₂.context.stack = m₁.context.stack.append c ∧ m₂.heap.read c.toRef = .ok (.array (es.push w)) := by
  have hno {m : Machine} {es : Array Value} (hr : m.heap.read c.toRef = .ok (.array es)) : asString? c m = .ok none m := by
    rw [asString?, bind_of_ok (deref?_of_read hc hr)]
    rfl
  have hread : (after (appendElem c w) (m.withStack (m.context.stack.append c))).heap.read c.toRef =
      .ok (.array (es.push w)) := by
    refine (read_after_update c _ _ c).trans ?_
    rw [if_pos ⟨rfl, rfl⟩]
    exact congrArg _ hr
  refine ⟨_, _, hs.perform_shares (hno hr) (by omega), rfl, hs.perform_shares (hno hread) ?_, rfl, hread⟩
  exact hroom

end Machine

end RubyMachine
