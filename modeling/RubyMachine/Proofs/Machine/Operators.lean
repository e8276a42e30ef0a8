import RubyMachine.Machine.Step
import RubyMachine.Proofs.Scope.Memory

/-! The instructions of operators: what they take from the stack and what they leave there. -/

namespace RubyMachine

open Exec

/-! ## Live slots -/

namespace Stack

variable {s t u : Stack} {v w : Value} {k : Nat}

/-- Two stacks differ at most in slots that are not live. -/
structure Alike (s t : Stack) : Prop where
  id : s.id = t.id
  capacity : s.capacity = t.capacity
  live : s.toList = t.toList

theorem Alike.refl (s : Stack) : s.Alike s := ⟨rfl, rfl, rfl⟩

theorem Alike.symm (h : s.Alike t) : t.Alike s := ⟨h.id.symm, h.capacity.symm, h.live.symm⟩

theorem Alike.trans (h : s.Alike t) (h' : t.Alike u) : s.Alike u :=
  ⟨h.id.trans h'.id, h.capacity.trans h'.capacity, h.live.trans h'.live⟩

theorem length_toList (s : Stack) : s.toList.length = s.len := by
  have := s.len_le
  rw [toList, List.length_take, Array.length_toList]
  omega

theorem Alike.len (h : s.Alike t) : s.len = t.len := by
  rw [← length_toList, h.live, length_toList]

theorem getElem?_toList (s : Stack) (i : Nat) : s.toList[i]? = if i < s.len then some (s.slots.getD i .zero) else none := by
  have := s.len_le
  rw [toList, List.getElem?_take, Array.getElem?_toList]
  split_ifs with h
  · rw [Array.getD_eq_getD_getElem?, Array.getElem?_eq_getElem (by omega), Option.getD_some]
  · rfl

theorem toList_append (s : Stack) (v : Value) : (s.append v).toList = s.toList ++ [v] := by
  refine List.ext_getElem? fun i => ?_
  have hlen : (s.append v).len = s.len + 1 := rfl
  have hslots : (s.append v).slots = store s.slots s.len v := rfl
  rw [getElem?_toList, hlen, hslots, getD_store, List.getElem?_append, length_toList, getElem?_toList]
  rcases Nat.lt_trichotomy i s.len with h | h | h
  · rw [if_pos (by omega), if_neg (by omega), if_pos h, if_pos h]
  · rw [if_pos (by omega), if_pos h, if_neg (by omega), h, Nat.sub_self]
    rfl
  · rw [if_neg (by omega), if_neg (by omega), List.getElem?_eq_none (by rw [List.length_singleton]; omega)]

theorem toList_appendAll (s : Stack) (vs : List Value) : (s.appendAll vs).toList = s.toList ++ vs := by
  have step (s : Stack) (v : Value) (vs : List Value) : (s.appendAll (v :: vs)).toList = ((s.append v).appendAll vs).toList := by
    have hlen : (s.appendAll (v :: vs)).len = ((s.append v).appendAll vs).len := by
      show s.len + (vs.length + 1) = s.len + 1 + vs.length
      omega
    rw [toList, toList, hlen]
    rfl
  induction vs generalizing s with
  | nil => rw [List.append_nil]; rfl
  | cons v vs ih => rw [step, ih, toList_append, List.append_assoc]; rfl

theorem toList_cut (v : Value) (h : k ≤ s.len) : (s.cut k v).toList = s.toList.take k := by
  refine List.ext_getElem? fun i => ?_
  have hlen : (s.cut k v).len = k := Nat.min_eq_left h
  have hslots : (s.cut k v).slots = wipe s.slots k v (s.len - k) := rfl
  rw [getElem?_toList, hlen, hslots, List.getElem?_take, getElem?_toList]
  split_ifs with hi hi'
  · rw [getD_wipe _ _ _ hi]
  · omega
  · rfl

theorem top_of_toList {l : List Value} (h : s.toList = l ++ [v]) : s.top = .ok v := by
  have hlen : s.len = l.length + 1 := by rw [← length_toList, h, List.length_append, List.length_singleton]
  have hget := getElem?_toList s l.length
  rw [if_pos (by omega), h, List.getElem?_append_right le_rfl, Nat.sub_self, List.getElem?_cons_zero, Option.some_inj] at hget
  rw [top, if_neg (by omega), hlen, Nat.add_sub_cancel, ← hget]

/-- The stack without its last live slot. -/
def popped (s : Stack) : Stack := s.cut (s.len - 1) .nil

theorem toList_popped {l : List Value} (h : s.toList = l ++ [v]) : s.popped.toList = l := by
  have hlen : s.len = l.length + 1 := by rw [← length_toList, h, List.length_append, List.length_singleton]
  rw [popped, toList_cut _ (by omega), h, hlen, Nat.add_sub_cancel, List.take_left]

end Stack

variable {m m' : Machine} {v w : Value} {l : List Value} {s t : Stack}

theorem pop_eq (h : m.context.stack.toList = l ++ [v]) : pop m = .ok v (m.withStack m.context.stack.popped) := by
  have htop : (liftM m.context.stack.top : Exec Value) m = .ok v m := by
    rw [Stack.top_of_toList h]
    rfl
  exact bind_of_ok htop

theorem pop_of_toList (h : m.context.stack.toList = l ++ [v]) : ∃ t, pop m = .ok v (m.withStack t) ∧ t.toList = l ∧
    t.id = m.context.stack.id ∧ t.capacity = m.context.stack.capacity :=
  ⟨m.context.stack.popped, pop_eq h, Stack.toList_popped h, rfl, rfl⟩

/-- What was pushed last is popped first. -/
theorem pop_apply (h : s.Alike (t.appendAll (l ++ [v]))) (m : Machine) :
    ∃ s', pop (m.withStack s) = .ok v (m.withStack s') ∧ s'.Alike (t.appendAll l) := by
  have hlist : s.toList = t.toList ++ l ++ [v] := by rw [h.live, Stack.toList_appendAll, List.append_assoc]
  obtain ⟨s', hpop, hlive, hid, hcap⟩ := pop_of_toList (m := m.withStack s) hlist
  refine ⟨s', hpop, ⟨hid.trans h.id, hcap.trans h.capacity, ?_⟩⟩
  rw [hlive, Stack.toList_appendAll]

theorem push_apply (v : Value) (h : m.context.stack.len < m.context.stack.capacity) :
    push v m = .ok () (m.withStack (m.context.stack.append v)) := by
  have hcheck : (liftM (m.context.stack.checkCapacity (m.context.stack.len + 1)) : Exec Unit) m = .ok () m := by
    rw [Stack.checkCapacity, if_neg (by omega)]
    rfl
  exact bind_of_ok (f := fun _ => modifyStack (·.append v)) hcheck

/-! ## Operators by their opcodes -/

namespace Site

variable {s : Site} {o : Operator}

theorem perform_binary (h : Operator.ofOpcode? s.op = some o) : s.perform = (do
    let rhs ← pop
    let lhs ← pop
    applyPush o lhs rhs) := by
  obtain ⟨act, pc, op⟩ := s
  cases op <;> first | (cases h; done) | (cases h; rfl)

theorem perform_immediate (h : Operator.ofImmediate? s.op = some o) : s.perform = (do
    let rhs ← s.immediate
    let lhs ← pop
    applyPush o lhs rhs) := by
  obtain ⟨act, pc, op⟩ := s
  cases op <;> first | (cases h; done) | (cases h; rfl)

theorem perform_branch (h : Operator.ofBranch? s.op = some o) : s.perform = (do
    let rhs ← pop
    let lhs ← pop
    s.applyBranch o lhs rhs 1) := by
  obtain ⟨act, pc, op⟩ := s
  cases op <;> first | (cases h; done) | (cases h; rfl)

theorem perform_immediateBranch (h : Operator.ofImmediateBranch? s.op = some o) : s.perform = (do
    let rhs ← s.immediate
    let lhs ← pop
    s.applyBranch o lhs rhs 5) := by
  obtain ⟨act, pc, op⟩ := s
  cases op <;> first | (cases h; done) | (cases h; rfl)

theorem perform_negative (h : s.op = .neg) : s.perform = negative := by
  obtain ⟨act, pc, op⟩ := s
  cases h
  rfl

theorem perform_complement (h : s.op = .bitNot) : s.perform = complement := by
  obtain ⟨act, pc, op⟩ := s
  cases h
  rfl

/-! ## Operators that need no call -/

/-- The instruction takes `args` off the stack and comes to `r`: it leaves the value there, or fails. -/
def Computes (s : Site) (args : List Value) (r : Except Failure Value) : Prop :=
  ∀ m : Machine, m.context.stack.len + args.length ≤ m.context.stack.capacity → ∃ t : Stack,
    s.perform.run (m.withStack (m.context.stack.appendAll args)) = .ok (r.map fun _ => .next) (m.withStack t) ∧
    t.Alike (m.context.stack.appendAll r.toOption.toList)

theorem pushResult_apply (v : Value) {t : Stack} (hs : t.Alike m.context.stack)
    (h : m.context.stack.len < m.context.stack.capacity) :
    ∃ t', pushResult v (m.withStack t) = .ok .next (m.withStack t') ∧ t'.Alike (m.context.stack.appendAll [v]) := by
  have hpush := push_apply (m := m.withStack t) v (by rw [show (m.withStack t).context.stack = t from rfl, hs.len, hs.capacity]; exact h)
  refine ⟨t.append v, bind_of_ok hpush, hs.id, hs.capacity, ?_⟩
  rw [Stack.toList_append, Stack.toList_appendAll, hs.live]

theorem computes_binary (ho : Operator.ofOpcode? s.op = some o) {r : Except Failure Value}
    (h : ∀ m, operation o v w m = .ok (.done r) m) : s.Computes [v, w] r := by
  intro m hroom
  rw [List.length_cons, List.length_singleton] at hroom
  obtain ⟨t₁, hrhs, h₁⟩ := pop_apply (l := [v]) (v := w) (.refl _) m
  obtain ⟨t₂, hlhs, h₂⟩ := pop_apply (l := []) (v := v) h₁ m
  have h₂ : t₂.Alike m.context.stack := h₂
  have hrun : s.perform.run (m.withStack (m.context.stack.appendAll [v, w])) = (applyPush o v w).run (m.withStack t₂) := by
    rw [perform_binary ho]
    exact (Attempt.run_lift_bind hrhs).trans (Attempt.run_lift_bind hlhs)
  have hdone : (applyPush o v w).run (m.withStack t₂) = _ := Attempt.run_lift_bind (h (m.withStack t₂))
  rw [hrun, hdone]
  cases r with
  | ok u =>
    obtain ⟨t₃, hpush, h₃⟩ := pushResult_apply u h₂ (by omega)
    exact ⟨t₃, Attempt.run_lift hpush, h₃⟩
  | error f => exact ⟨t₂, rfl, h₂⟩

theorem computes_negative (ho : s.op = .neg) (hv : v.isFixnum = true) : s.Computes [v] (Number.negate (.ofInt v.toInt)) := by
  intro m hroom
  rw [List.length_singleton] at hroom
  obtain ⟨t, hpop, ht⟩ := pop_apply (l := []) (v := v) (.refl _) m
  have ht : t.Alike m.context.stack := ht
  rw [perform_negative ho]
  cases hr : Number.negate (.ofInt v.toInt) with
  | ok u =>
    obtain ⟨t', hpush, ht'⟩ := pushResult_apply u ht (by omega)
    refine ⟨t', (Attempt.run_lift_bind hpop).trans ?_, ht'⟩
    rw [if_pos hv, hr]
    exact Attempt.run_lift hpush
  | error f =>
    refine ⟨t, (Attempt.run_lift_bind hpop).trans ?_, ht⟩
    rw [if_pos hv, hr]
    rfl

theorem computes_complement (ho : s.op = .bitNot) (hv : v.isFixnum = true) :
    s.Computes [v] (.ok (Number.complement (.ofInt v.toInt))) := by
  intro m hroom
  rw [List.length_singleton] at hroom
  obtain ⟨t, hpop, ht⟩ := pop_apply (l := []) (v := v) (.refl _) m
  have ht : t.Alike m.context.stack := ht
  obtain ⟨t', hpush, ht'⟩ := pushResult_apply (Number.complement (.ofInt v.toInt)) ht (by omega)
  refine ⟨t', ?_, ht'⟩
  rw [perform_complement ho]
  refine (Attempt.run_lift_bind hpop).trans ?_
  rw [hv]
  exact Attempt.run_lift hpush

end Site

/-! ## Equality and inequality -/

/-- A number as left operand is compared at once, and one of equality and inequality holds. -/
theorem operation_numeric (h : v.isNumeric = true) (w : Value) : ∃ b : Bool, ∀ m,
    operation .eq v w m = .ok (.done (.ok (.ofBool b))) m ∧ operation .ne v w m = .ok (.done (.ok (.ofBool (!b)))) m := by
  unfold operation
  by_cases hint : (v.isFixnum && w.isFixnum) = true
  · rw [if_pos hint, if_pos hint]
    exact ⟨Int64.ofInt v.toInt == Int64.ofInt w.toInt, fun m => ⟨rfl, rfl⟩⟩
  rw [if_neg hint, if_neg hint]
  cases hw : w.isNumeric with
  | true =>
    have hreal (o : Operator) (ho : o.isBitwise = false) : (v.isNumeric && true && !o.isBitwise) = true := by rw [h, ho]; rfl
    rw [if_pos (hreal .eq rfl), if_pos (hreal .ne rfl)]
    exact ⟨Number.toReal v == Number.toReal w, fun m => ⟨rfl, rfl⟩⟩
  | false =>
    have hmixed (o : Operator) : ¬ (v.isNumeric && false && !o.isBitwise) = true := by rw [h]; exact Bool.false_ne_true
    rw [if_neg (hmixed .eq), if_neg (hmixed .ne), if_pos h, if_pos h]
    exact ⟨false, fun m => ⟨rfl, rfl⟩⟩

theorem operation_object {o : Operator} (h : v.isNumeric = false) : operation o v w = match o with
    | .eq | .teq => if v == w then return .done (.ok .true) else return .send o.method false
    | .ne => return .send .eq true
    | o => return .send o.method false := by
  have hint : v.isFixnum = false := by
    rw [Value.isNumeric, Bool.or_eq_false_iff] at h
    exact h.1
  have hmixed : ¬ (v.isNumeric && w.isNumeric && !o.isBitwise) = true := by simp [h]
  have hnumber : ¬ v.isNumeric = true := by simp [h]
  refine (if_neg (by simp [hint])).trans ((if_neg hmixed).trans ((if_neg hnumber).trans ?_))
  cases o <;> rfl

/-- Anything else is asked by its own method whether it is equal, for inequality too, and then the answer is negated. Only
the same word is equal without being asked, and is asked all the same whether it is unequal. -/
theorem inequality_asks (h : v.isNumeric = false) (w : Value) (m : Machine) :
    operation .ne v w m = .ok (.send .eq true) m ∧
    operation .eq v w m = .ok (if v = w then .done (.ok .true) else .send .eq false) m := by
  rw [operation_object h, operation_object h]
  refine ⟨rfl, ?_⟩
  by_cases hvw : v = w
  · rw [if_pos hvw]
    exact congrFun (if_pos (beq_iff_eq.2 hvw)) m
  · rw [if_neg hvw]
    exact congrFun (if_neg fun hb => hvw (beq_iff_eq.1 hb)) m

/-- The answer comes to what was left to be done for the inequality, and goes on as its negation. -/
theorem negate_answers (name : Ident) (m : Machine) (r : Except Failure Value) :
    sendOperator name true v w m = send name v [w] .nil none { m with context.konts := .negate :: m.context.konts } ∧
    resumeKont .negate r m = .ok (.deliver (r.map fun u => .ofBool (!u.isTruthy))) m := by
  refine ⟨rfl, ?_⟩
  cases r <;> rfl

end RubyMachine
