import RubyMachine.Proofs.Threads.Order
import Mathlib.Data.List.Nodup

/-! Who has which stack. A stack belongs to one thread, or it is kept for the next one, and what was handed out is
what threads have and what was given back. On the way from one to the other a stack is loose: it has been taken from
one owner, and has not come to the next. -/

namespace RubyMachine

open Exec

variable {fibers : Array Fiber} {chain : List (Option Nat)} {id : Nat} {f : Fiber → Fiber}

theorem getD_push_self (fibers : Array Fiber) (x : Fiber) : (fibers.push x).getD fibers.size default = x := by
  rw [Array.getD_eq_getD_getElem?, Array.getElem?_push_size, Option.getD_some]

theorem getD_push_of_ne (x : Fiber) {i : Nat} (hi : i ≠ fibers.size) :
    (fibers.push x).getD i default = fibers.getD i default := by
  rw [Array.getD_eq_getD_getElem?, Array.getD_eq_getD_getElem?, Array.getElem?_push, if_neg hi]

theorem modify_of_le (f : Fiber → Fiber) (h : fibers.size ≤ id) : fibers.modify id f = fibers := by
  refine Array.ext_getElem? fun i => ?_
  rw [Array.getElem?_modify]
  split
  · subst i
    rw [Array.getElem?_eq_none h]
    rfl
  · rfl

/-! ## The chain -/

/-- The root is at the end of a chain of threads. All others belong to fibers, no two of them to the same one, and
all threads that were put aside to other fibers. -/
structure Chained (chain : List (Option Nat)) (fibers : Array Fiber) : Prop where
  root : ∃ ids : List Nat, chain = ids.map some ++ [none]
  distinct : chain.Nodup
  live : ∀ id, some id ∈ chain →
    id < fibers.size ∧ (fibers.getD id default).active = true ∧ (fibers.getD id default).context = none
  own : ∀ id x, (fibers.getD id default).context = some x → x.fiber = some id

namespace Chained

/-- A fiber may be changed if it goes on to be in the chain or not, and keeps its thread or loses it. -/
theorem modify (h : Chained chain fibers) (id : Nat) (ha : ∀ x, (f x).active = x.active)
    (hx : ∀ x, (f x).context = x.context ∨ (f x).context = none) : Chained chain (fibers.modify id f) where
  root := h.root
  distinct := h.distinct
  live i hi := by
    rw [Array.size_modify]
    obtain ⟨hlt, hactive, hnone⟩ := h.live i hi
    refine ⟨hlt, ?_⟩
    rcases Logic.getD_modify fibers id i f with he | ⟨-, he⟩
    · exact he ▸ ⟨hactive, hnone⟩
    · exact he ▸ ⟨(ha _).trans hactive, (hx _).elim (·.trans hnone) fun h => h⟩
  own i x hc := by
    rcases Logic.getD_modify fibers id i f with he | ⟨-, he⟩
    · exact h.own i x (he ▸ hc)
    · rw [he] at hc
      rcases hx (fibers.getD i default) with hs | hs
      · exact h.own i x (hs.symm.trans hc)
      · cases hs.symm.trans hc

theorem push (h : Chained chain fibers) {x : Fiber} (hx : x.context = none) : Chained chain (fibers.push x) where
  root := h.root
  distinct := h.distinct
  live i hi := by
    obtain ⟨hlt, hlive⟩ := h.live i hi
    rw [Array.size_push, getD_push_of_ne x hlt.ne]
    exact ⟨hlt.trans (Nat.lt_succ_self _), hlive⟩
  own i y hy := by
    by_cases hi : i = fibers.size
    · subst hi
      rw [getD_push_self, hx] at hy
      cases hy
    · exact h.own i y (getD_push_of_ne x hi ▸ hy)

theorem enter (h : Chained chain fibers) (hid : id < fibers.size) (hout : some id ∉ chain)
    (ha : ∀ x, (f x).active = true) (hf : ∀ x, (f x).context = none) : Chained (some id :: chain) (fibers.modify id f) where
  root := by
    obtain ⟨ids, rfl⟩ := h.root
    exact ⟨id :: ids, rfl⟩
  distinct := List.nodup_cons.mpr ⟨hout, h.distinct⟩
  live i hi := by
    rw [Array.size_modify]
    rcases List.mem_cons.mp hi with he | hi
    · cases he
      rw [getD_modify_self f hid]
      exact ⟨hid, ha _, hf _⟩
    · have hne : i ≠ id := fun he => hout (he ▸ hi)
      rw [getD_modify_ne f hne]
      exact h.live i hi
  own i x hx := by
    by_cases he : i = id
    · subst he
      rw [getD_modify_self f hid, hf] at hx
      cases hx
    · exact h.own i x (getD_modify_ne f he ▸ hx)

theorem leave (h : Chained (some id :: chain) fibers)
    (hf : ∀ x, (f (fibers.getD id default)).context = some x → x.fiber = some id) : Chained chain (fibers.modify id f) where
  root := by
    obtain ⟨ids, hids⟩ := h.root
    cases ids with
    | nil => cases hids
    | cons i ids => exact ⟨ids, (List.cons.inj hids).2⟩
  distinct := (List.nodup_cons.mp h.distinct).2
  live i hi := by
    have hne : i ≠ id := fun he => (List.nodup_cons.mp h.distinct).1 (he ▸ hi)
    rw [Array.size_modify, getD_modify_ne f hne]
    exact h.live i (List.mem_cons_of_mem _ hi)
  own i x hx := by
    by_cases he : i = id
    · subst he
      exact hf x (getD_modify_self f (h.live i List.mem_cons_self).1 ▸ hx)
    · exact h.own i x (getD_modify_ne f he ▸ hx)

/-- The root is above no other thread. -/
theorem alone (h : Chained (none :: chain) fibers) : chain = [] := by
  obtain ⟨ids, hids⟩ := h.root
  cases ids with
  | nil => exact (List.cons.inj hids).2
  | cons i ids => cases (List.cons.inj hids).1

/-- A fiber is above another thread. -/
theorem below (h : Chained (some id :: chain) fibers) : chain ≠ [] := by
  rintro rfl
  obtain ⟨ids, hids⟩ := h.root
  cases ids with
  | nil => cases hids
  | cons i ids => cases ids <;> cases (List.cons.inj hids).2

end Chained

/-! ## Threads that are put aside -/

/-- The threads of fibers that were put aside. -/
def Fiber.suspended (fibers : Array Fiber) : List Context :=
  (List.range fibers.size).filterMap fun id => (fibers.getD id default).context

namespace Fiber

theorem filterMap_cons_toList {α β : Type} (g : α → Option β) (a : α) (as : List α) :
    (a :: as).filterMap g = (g a).toList ++ as.filterMap g := by
  cases h : g a with
  | none => exact List.filterMap_cons_none h
  | some b => exact List.filterMap_cons_some h

/-- A change of one fiber changes what is put aside in one place. -/
theorem suspended_split (hid : id < fibers.size) : ∃ a b,
    suspended fibers = a ++ ((fibers.getD id default).context.toList ++ b) ∧
    ∀ f, suspended (fibers.modify id f) = a ++ ((f (fibers.getD id default)).context.toList ++ b) := by
  obtain ⟨s, t, hs⟩ := List.append_of_mem (List.mem_range.mpr hid)
  have distinct : (s ++ id :: t).Nodup := hs ▸ List.nodup_range
  rw [List.nodup_append', List.nodup_cons, List.disjoint_cons_right] at distinct
  obtain ⟨-, ⟨ht, -⟩, hs', -⟩ := distinct
  let thread (i : Nat) := (fibers.getD i default).context
  refine ⟨s.filterMap thread, t.filterMap thread, ?_, fun f => ?_⟩
  · rw [suspended, hs, List.filterMap_append, filterMap_cons_toList]
  · have same (i : Nat) (hi : i ≠ id) : ((fibers.modify id f).getD i default).context = thread i :=
      congrArg Fiber.context (getD_modify_ne f hi)
    rw [suspended, Array.size_modify, hs, List.filterMap_append, filterMap_cons_toList, getD_modify_self f hid]
    refine congrArg₂ _ ?_ (congrArg _ ?_)
    · exact List.filterMap_congr fun i hi => same i fun he => hs' (he ▸ hi)
    · exact List.filterMap_congr fun i hi => same i fun he => ht (he ▸ hi)

theorem suspended_eq (fibers : Array Fiber) : suspended fibers = fibers.toList.filterMap Fiber.context := by
  have all : (List.range fibers.size).map (fun i => fibers.getD i default) = fibers.toList := by
    refine List.ext_getElem (by simp) fun i h _ => ?_
    rw [List.length_map, List.length_range] at h
    simp [h]
  rw [← all, List.filterMap_map]
  rfl

theorem suspended_push {x : Fiber} (hx : x.context = none) : suspended (fibers.push x) = suspended fibers := by
  have new : ((fibers.push x).getD fibers.size default).context = none := by rw [getD_push_self, hx]
  rw [suspended, Array.size_push, List.range_succ, List.filterMap_append, filterMap_cons_toList, new]
  refine (List.append_nil _).trans (List.filterMap_congr fun i hi => ?_)
  rw [getD_push_of_ne x (List.mem_range.mp hi).ne]

end Fiber

/-! ## Stacks -/

namespace StackPool

variable {p : StackPool} {s : Stack} {free : List Stack}

theorem take_of_nil (h : p.free = []) :
    p.take = (.empty p.stackSize p.made, { p with made := p.made + 1, taken := p.taken + 1 }) := by
  unfold take
  rw [h]

theorem take_of_cons (h : p.free = s :: free) :
    p.take = (s, { p with free := free, taken := p.taken + 1, reused := p.reused + 1 }) := by
  unfold take
  rw [h]

end StackPool

def Context.stackId (x : Context) : Nat := x.stack.id

namespace Machine

/-- All threads that there are: those of the chain, and those that were put aside. -/
def threads (m : Machine) : List Context := m.chain ++ Fiber.suspended m.fibers

/-- The stacks that threads have. -/
def held (m : Machine) : List Nat := m.threads.map Context.stackId

/-- The stacks that threads have, and those that are kept. -/
def stackIds (m : Machine) : List Nat := m.held ++ m.pool.free.map Stack.id

/-- Each stack has one owner, apart from the loose ones. -/
structure Tallied (loose : List Nat) (m : Machine) : Prop where
  apart : (loose ++ m.stackIds).Nodup
  made : ∀ i ∈ loose ++ m.stackIds, i < m.pool.made
  empty : ∀ s ∈ m.pool.free, s.len = 0
  room : m.pool.free.length ≤ m.pool.capacity
  capacity : m.pool.capacity = m.options.fiberPool.toNat
  /-- The root did not take its stack from the pool. -/
  taken : m.pool.taken + 1 = m.pool.returned + .ofNat (loose.length + m.threads.length)

variable {m m' : Machine} {l l' : List Nat} {x : Context} {rest : List Context}

namespace Tallied

/-- Stacks may come loose, and loose ones find an owner. -/
theorem of_perm (h : m.Tallied l) (hp : m'.pool = m.pool) (ho : m'.options = m.options)
    (hs : (l' ++ m'.held).Perm (l ++ m.held)) : m'.Tallied l' := by
  have all : (l' ++ m'.stackIds).Perm (l ++ m.stackIds) := by
    unfold stackIds
    rw [hp, ← List.append_assoc, ← List.append_assoc]
    exact hs.append_right _
  have count : l'.length + m'.threads.length = l.length + m.threads.length := by
    simpa only [List.length_append, held, List.length_map] using hs.length_eq
  refine ⟨all.nodup_iff.mpr h.apart, fun i hi => ?_, ?_, ?_, ?_, ?_⟩
  · rw [hp]
    exact h.made i (all.mem_iff.mp hi)
  · exact hp ▸ h.empty
  · exact hp ▸ h.room
  · rw [hp, ho]
    exact h.capacity
  · rw [hp, count]
    exact h.taken

theorem calm (h : m.Tallied l) (hc : m.Calm m') (ho : m'.options = m.options) : m'.Tallied l := by
  refine h.of_perm hc.pool ho (List.Perm.of_eq ?_)
  have running : m'.context.stackId = m.context.stackId := hc.stack
  simp only [held, threads, Machine.chain, hc.fibers, hc.waiting, List.cons_append, List.map_cons, running]

/-- The stack of a fiber that is given up is loose. -/
theorem loosen (h : m.Tallied l) (id : Nat) (hf : ∀ x, (f x).context = none) :
    { m with fibers := m.fibers.modify id f }.Tallied
      ((m.fibers.getD id default).context.toList.map Context.stackId ++ l) := by
  by_cases hid : id < m.fibers.size
  case neg =>
    have hid := not_lt.mp hid
    rw [modify_of_le f hid, Array.getD_eq_getD_getElem?, Array.getElem?_eq_none hid]
    exact h
  refine h.of_perm rfl rfl (List.perm_iff_count.mpr fun i => ?_)
  obtain ⟨a, b, hold, hnew⟩ := Fiber.suspended_split hid
  simp only [held, threads, hold, hnew, hf, Machine.chain, List.map_append, List.count_append, Option.toList_none,
    List.map_nil, List.count_nil]
  omega

/-- A thread is gone on with, on a loose stack or on the one that its fiber has. -/
theorem enter (h : m.Tallied l) (hid : id < m.fibers.size) (hf : ∀ x, (f x).context = none)
    (hl : (x.stackId :: l').Perm ((m.fibers.getD id default).context.toList.map Context.stackId ++ l)) :
    { m with fibers := m.fibers.modify id f, waiting := m.context :: m.waiting, context := x }.Tallied l' := by
  refine h.of_perm rfl rfl (List.perm_iff_count.mpr fun i => ?_)
  obtain ⟨a, b, hold, hnew⟩ := Fiber.suspended_split hid
  have hl := List.perm_iff_count.mp hl i
  simp only [List.count_append, List.count_cons] at hl
  simp only [held, threads, hold, hnew, hf, Machine.chain, List.map_append, List.map_cons, List.count_append,
    List.count_cons, Option.toList_none, List.map_nil, List.count_nil]
  omega

/-- A thread is left. Its stack is loose, or its fiber keeps it. -/
theorem leave (h : m.Tallied l) (hid : id < m.fibers.size) (hn : (m.fibers.getD id default).context = none)
    (hw : m.waiting = x :: rest)
    (hl : ((f (m.fibers.getD id default)).context.toList.map Context.stackId ++ l').Perm (m.context.stackId :: l)) :
    { m with fibers := m.fibers.modify id f, context := x, waiting := rest }.Tallied l' := by
  refine h.of_perm rfl rfl (List.perm_iff_count.mpr fun i => ?_)
  obtain ⟨a, b, hold, hnew⟩ := Fiber.suspended_split hid
  have hl := List.perm_iff_count.mp hl i
  simp only [List.count_append, List.count_cons] at hl
  simp only [held, threads, hold, hnew, hn, hw, Machine.chain, List.map_append, List.map_cons, List.count_append,
    List.count_cons, Option.toList_none, List.map_nil, List.count_nil]
  omega

theorem push (h : m.Tallied l) {x : Fiber} (hx : x.context = none) : { m with fibers := m.fibers.push x }.Tallied l := by
  refine h.of_perm rfl rfl (List.Perm.of_eq ?_)
  simp only [held, threads, Machine.chain, Fiber.suspended_push hx]

theorem ofNat_succ (n : Nat) : UInt64.ofNat (n + 1) = UInt64.ofNat n + 1 := UInt64.ofNat_add n 1

/-- A loose stack is kept for later, or let go if enough of them are kept. -/
theorem put {s : Stack} (h : m.Tallied (s.id :: l)) : { m with pool := m.pool.put s }.Tallied l := by
  have taken : m.pool.taken + 1 = m.pool.returned + 1 + .ofNat (l.length + m.threads.length) := by
    rw [h.taken, List.length_cons, Nat.add_right_comm, ofNat_succ, UInt64.add_comm (.ofNat _), UInt64.add_assoc]
  by_cases hroom : m.pool.free.length < m.pool.capacity
  · have free : (m.pool.put s).free = s.reset :: m.pool.free := if_pos hroom
    have all : (l ++ { m with pool := m.pool.put s }.stackIds).Perm (s.id :: l ++ m.stackIds) := by
      have kept : { m with pool := m.pool.put s }.stackIds = m.held ++ s.id :: m.pool.free.map Stack.id :=
        congrArg (fun free : List Stack => m.held ++ free.map Stack.id) free
      rw [kept, ← List.append_assoc, List.cons_append, stackIds, ← List.append_assoc]
      exact List.perm_middle
    refine ⟨all.nodup_iff.mpr h.apart, fun i hi => h.made i (all.mem_iff.mp hi), fun t ht => ?_, ?_, h.capacity, taken⟩
    · rcases List.mem_cons.mp (free ▸ ht) with rfl | ht
      · rfl
      · exact h.empty t ht
    · exact (congrArg List.length free).trans_le hroom
  · have free : (m.pool.put s).free = m.pool.free := if_neg hroom
    have all : { m with pool := m.pool.put s }.stackIds = m.stackIds :=
      congrArg (fun free : List Stack => m.held ++ free.map Stack.id) free
    refine ⟨?_, fun i hi => h.made i (List.mem_cons_of_mem _ ?_), free ▸ h.empty, free ▸ h.room, h.capacity, taken⟩
    · rw [all]
      exact (List.nodup_cons.mp h.apart).2
    · rwa [all] at hi

/-- A stack is taken that was kept, or one that was never taken before. -/
theorem take (h : m.Tallied l) : { m with pool := m.pool.take.2 }.Tallied (m.pool.take.1.id :: l) := by
  have taken : m.pool.taken + 1 + 1 = m.pool.returned + .ofNat ((l.length + 1) + m.threads.length) := by
    rw [h.taken, Nat.add_right_comm, ofNat_succ, UInt64.add_assoc]
  cases hp : m.pool.free with
  | nil =>
    rw [StackPool.take_of_nil hp]
    refine ⟨?_, fun i hi => ?_, h.empty, h.room, h.capacity, taken⟩
    · exact List.nodup_cons.mpr ⟨fun hi => (h.made _ hi).ne rfl, h.apart⟩
    · rcases List.mem_cons.mp hi with rfl | hi
      · exact Nat.lt_succ_self _
      · exact (h.made i hi).trans (Nat.lt_succ_self _)
  | cons s free =>
    rw [StackPool.take_of_cons hp]
    have all : (s.id :: l ++ (m.held ++ free.map Stack.id)).Perm (l ++ m.stackIds) := by
      rw [stackIds, hp, List.map_cons, ← List.append_assoc, ← List.append_assoc, List.cons_append]
      exact List.perm_middle.symm
    refine ⟨all.nodup_iff.mpr h.apart, fun i hi => h.made i (all.mem_iff.mp hi), fun t ht => ?_, ?_, h.capacity, taken⟩
    · exact h.empty t (hp ▸ List.mem_cons_of_mem _ ht)
    · exact (Nat.le_succ _).trans ((congrArg List.length hp).symm.trans_le h.room)

end Tallied

end Machine

end RubyMachine
