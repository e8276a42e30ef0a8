import RubyMachine.Proofs.Arguments.Slots
import RubyMachine.Proofs.Scope.Escape

/-! Where keywords come to lie: each in the slot of its parameter, surplus ones in a hash if there is a slot for it. -/

namespace RubyMachine

open Exec Machine Code

/-! ## Attempts that end well -/

/-- The attempt succeeds with what `P` says, unless the heap is full before it has `n` pages. -/
def Attempt.Ends {α : Type} (x : Attempt α) (m : Machine) (n : Nat) (P : α → Machine → Prop) : Prop :=
  Exec.Ends x.run m n fun r m' => ∃ a, r = .ok a ∧ P a m'

namespace Attempt.Ends

variable {α β : Type} {x : Attempt α} {y : Exec α} {f : α → Attempt β} {m m' : Machine} {a : α} {n n' : Nat}
  {P P' : α → Machine → Prop} {Q : β → Machine → Prop}

theorem pure (h : P a m) : Attempt.Ends (pure a) m n P := .of_ok rfl ⟨a, rfl, h⟩

theorem bind (hx : x.Ends m n P) (hf : ∀ a m', P a m' → (f a).Ends m' n Q) : (x >>= f).Ends m n Q := by
  rw [Attempt.Ends, ExceptT.run_bind]
  refine Exec.Ends.bind hx fun r m' hr => ?_
  obtain ⟨a, rfl, ha⟩ := hr
  exact hf a m' ha

theorem lift (hy : Exec.Ends y m n P) : Attempt.Ends (liftM y) m n P := by
  rw [Attempt.Ends, ExceptT.run_liftM]
  exact Exec.Ends.bind hy fun a m' ha => .of_ok rfl ⟨a, rfl, ha⟩

theorem imp (hx : x.Ends m n P) (h : ∀ a m', P a m' → P' a m') : x.Ends m n P' :=
  Exec.Ends.imp hx fun _ m' ⟨a, hr, ha⟩ => ⟨a, hr, h a m' ha⟩

theorem of_le (hx : x.Ends m n P) (hn : n ≤ n') : x.Ends m n' P := Exec.Ends.of_le hx hn

/-- With room on the heap the attempt does succeed. -/
theorem exists_ok (hx : x.Ends m n P) (hn : n ≤ Heap.maxPages) : ∃ a m', x.run m = .ok (.ok a) m' ∧ P a m' := by
  obtain ⟨r, m', hrun, a, rfl, ha⟩ := Exec.Ends.exists_ok hx hn
  exact ⟨a, m', hrun, ha⟩

end Attempt.Ends

namespace Attempt

variable {α β : Type} {y : Exec α} {f : α → Attempt β} {m m' : Machine} {a : α} {n : Nat} {Q : β → Machine → Prop}

/-- What is done first needs nothing of the heap. -/
theorem Ends.step (hy : y m = .ok a m') (hf : (f a).Ends m' n Q) : (liftM y >>= f).Ends m n Q := by
  rw [Attempt.Ends, Exec.Ends, run_lift_bind hy]
  exact hf

end Attempt

/-- The attempt comes to `y` in a machine of which `P` is true, unless the heap is full before it has `n` pages. -/
def Attempt.Reaches {α : Type} (x : Attempt α) (m : Machine) (y : Attempt α) (n : Nat) (P : Machine → Prop) : Prop :=
  (∃ m', x.run m = y.run m' ∧ P m') ∨
    ∃ m', x.run m = .error (.heapExhausted m'.heap.pages.size) m' ∧ Heap.maxPages ≤ m'.heap.pages.size ∧ m'.heap.pages.size < n

namespace Attempt.Reaches

variable {α β : Type} {x y z : Attempt α} {w : Attempt β} {u : Exec β} {g : β → Attempt α} {f : α → Attempt α}
  {m m' : Machine} {b : β} {n : Nat} {P P' : Machine → Prop} {Q : β → Machine → Prop} {R : α → Machine → Prop}

theorem refl (h : P m) : x.Reaches m x n P := .inl ⟨m, rfl, h⟩

theorem step (hu : u m = .ok b m') (h : (g b).Reaches m' y n P) : (liftM u >>= g).Reaches m y n P := by
  rwa [Attempt.Reaches, run_lift_bind hu]

/-- What ends well is left behind. -/
theorem after (hw : w.Ends m n Q) (h : ∀ b m', Q b m' → (g b).Reaches m' y n P) : (w >>= g).Reaches m y n P := by
  have hrun (m : Machine) := congrFun (ExceptT.run_bind w (f := g)) m
  rcases hw with ⟨r, m₁, hr, b, rfl, hb⟩ | ⟨m₁, hr, hfull⟩
  · have hg := h b m₁ hb
    rwa [Attempt.Reaches, ← show (w >>= g).run m = (g b).run m₁ from (hrun m).trans (bind_of_ok hr)] at hg
  · exact .inr ⟨m₁, (hrun m).trans (bind_of_error hr), hfull⟩

theorem andThen (hx : x.Reaches m y n P) (f : α → Attempt α) : (x >>= f).Reaches m (y >>= f) n P := by
  rcases hx with ⟨m₁, hr, h₁⟩ | ⟨m₁, hr, hfull⟩
  · exact .inl ⟨m₁, by rw [ExceptT.run_bind, ExceptT.run_bind, bind_apply, bind_apply, hr], h₁⟩
  · exact .inr ⟨m₁, by rw [ExceptT.run_bind, bind_of_error hr], hfull⟩

theorem trans (hx : x.Reaches m y n P) (hy : ∀ m', P m' → y.Reaches m' z n P') : x.Reaches m z n P' := by
  rcases hx with ⟨m₁, hr, h₁⟩ | hfull
  · have h := hy m₁ h₁
    rwa [Attempt.Reaches, ← hr] at h
  · exact .inr hfull

theorem ends (hx : x.Reaches m y n P) (hy : ∀ m', P m' → y.Ends m' n R) : x.Ends m n R := by
  rcases hx with ⟨m₁, hr, h₁⟩ | hfull
  · have h := hy m₁ h₁
    rwa [Attempt.Ends, Exec.Ends, ← hr] at h
  · exact .inr hfull

end Attempt.Reaches

/-! ## Objects that come up while slots are filled -/

section

variable {m m₁ m₂ : Machine} {low size n : Nat} {f : Nat → Value} {v : Value}

theorem alloc_lays (h : Lays m m₁ low size f) (hn : m₁.heap.pages.size < n) (o : Object) :
    Exec.Ends (alloc o) m₁ n fun v m₂ => Lays m m₂ low size f ∧ m₁.KeepsObjects m₂ ∧ m₁.Allots m₂.heap v o :=
  alloc_ends h.inv hn fun _ h' hv =>
    have hk : m₁.KeepsObjects (m₁.withHeap h') := fun w o' hw => hv.kept w.toRef o' hw
    ⟨h.grow hv.inv hk, hk, hv⟩

theorem set_lays (h : Lays m m₁ low size f) {i : Nat} (hi : i < size) (hc : low + size ≤ m.context.stack.capacity)
    (v : Value) : ∃ m₂, (Locals.mk low size).set i v m₁ = .ok () m₂ ∧ Lays m m₂ low size (Function.update f i v) ∧
      m₂.heap = m₁.heap :=
  ⟨_, set_apply hi (by rwa [h.capacity]) v, h.poke i v, rfl⟩

/-- The words of `f` with some slots not given. -/
def ungiven (slots : List Nat) (f : Nat → Value) (i : Nat) : Value := if i ∈ slots then .uninit else f i

theorem forM_uninit (h : Lays m m₁ low size f) (hc : low + size ≤ m.context.stack.capacity) (ks : List Keyword)
    (hk : ∀ k ∈ ks, k.slot.toNat < size) :
    Attempt.Ends (ks.forM fun k => ((Locals.mk low size).set k.slot.toNat .uninit : Exec Unit)) m₁ n fun _ m₂ =>
      Lays m m₂ low size (ungiven (ks.map fun k => k.slot.toNat) f) ∧ m₂.heap = m₁.heap := by
  rw [List.forM_eq_forM]
  induction ks generalizing m₁ f with
  | nil => exact .pure ⟨h.congr fun i _ => by simp [ungiven], rfl⟩
  | cons k ks ih =>
    obtain ⟨m₂, hrun, h₂, hh⟩ := set_lays h (hk k List.mem_cons_self) hc .uninit
    rw [List.forM_cons]
    refine .step hrun ((ih h₂ fun k' hk' => hk k' (List.mem_cons_of_mem k hk')).imp ?_)
    rintro _ m₃ ⟨h₃, hh₃⟩
    refine ⟨h₃.congr fun i _ => ?_, hh₃.trans hh⟩
    simp only [ungiven, List.map_cons, List.mem_cons, Function.update_apply]
    by_cases hks : i ∈ ks.map fun k => k.slot.toNat
    · rw [if_pos hks, if_pos (.inr hks)]
    · by_cases he : i = k.slot.toNat
      · rw [if_neg hks, if_pos he, if_pos (.inl he)]
      · rw [if_neg hks, if_neg he, if_neg (not_or.2 ⟨he, hks⟩)]

/-! ## Keywords -/

/-- The slot of the keyword that a key names. -/
def Code.Params.slotFor? (p : Params) (key : Value) : Option Nat :=
  (if key.isSymbol then p.keywordSlot? key.toSymbol else none).map UInt32.toNat

/-- The words of `f` with those keywords of a hash that have a slot, the last one of each. -/
def Code.Params.route (p : Params) (f : Nat → Value) : List (Value × Value) → Nat → Value
  | [] => f
  | (k, v) :: es => p.route ((p.slotFor? k).elim f fun s => Function.update f s v) es

variable {p : Params} {g : Nat → Value} {es : List (Value × Value)} {k d : Value}

theorem Code.Params.slotFor?_mem {s : Nat} (h : p.slotFor? k = some s) : s ∈ p.keywords.map fun k => k.slot.toNat := by
  obtain ⟨slot, hslot, rfl⟩ := Option.map_eq_some_iff.1 h
  split at hslot
  · obtain ⟨kw, hkw, rfl⟩ := Option.map_eq_some_iff.1 hslot
    exact List.mem_map.2 ⟨kw, List.mem_of_find?_eq_some hkw, rfl⟩
  · cases hslot

/-- Words that are not for keywords are left. -/
theorem Code.Params.route_of_not_mem {i : Nat} (hi : i ∉ p.keywords.map fun k => k.slot.toNat) :
    p.route f es i = f i := by
  induction es generalizing f with
  | nil => rfl
  | cons e es ih =>
    obtain ⟨k, v⟩ := e
    rw [route, ih]
    cases hs : p.slotFor? k with
    | none => rfl
    | some s =>
      rw [Option.elim_some, Function.update_of_ne]
      rintro rfl
      exact hi (slotFor?_mem hs)

theorem Code.Params.route_congr {i : Nat} (h : f i = g i) : p.route f es i = p.route g es i := by
  induction es generalizing f g with
  | nil => exact h
  | cons e es ih =>
    obtain ⟨k, v⟩ := e
    rw [route, route]
    refine ih ?_
    cases p.slotFor? k with
    | none => exact h
    | some s => simp only [Option.elim_some, Function.update_apply, h]

/-- What a key is found by in a hash. -/
def Machine.keyId (m : Machine) (k : Value) : DictKey :=
  if k.isRef then
    match m.heap.read k.toRef with
    | .ok (.string s) => .text s
    | _ => .word k
  else .word k

theorem dictKey_apply (hk : k.isRef = true → ∃ o, m.heap.read k.toRef = .ok o) :
    dictKey k m = .ok (m.keyId k) m := by
  unfold Machine.keyId
  cases hr : k.isRef with
  | false =>
    have hd : deref? k m = .ok none m := by
      rw [deref?, hr]
      rfl
    have hs : asString? k m = .ok none m := by
      rw [asString?, bind_of_ok hd]
      rfl
    rw [dictKey, bind_of_ok hs]
    rfl
  | true =>
    obtain ⟨o, ho⟩ := hk hr
    rw [if_pos rfl, ho, dictKey, asString?, bind_assoc, bind_of_ok (deref?_of_read hr ho)]
    cases o <;> rfl

/-- A key stays the same key while objects are kept. -/
theorem Machine.KeepsObjects.keyId (h : m.KeepsObjects m₁) (hk : k.isRef = true → ∃ o, m.heap.read k.toRef = .ok o) :
    m₁.keyId k = m.keyId k := by
  unfold Machine.keyId
  cases hr : k.isRef with
  | false => rfl
  | true =>
    obtain ⟨o, ho⟩ := hk hr
    rw [ho, h k o ho]

/-- A hash that came up after `m`, with its entries. -/
structure Surplus (m m₁ : Machine) (d : Value) (entries : Dict) : Prop where
  fresh : ∀ o, m.heap.read d.toRef ≠ .ok o
  isRef : d.isRef = true
  dict : m₁.heap.read d.toRef = .ok (.dict entries)

variable {entries : Dict}

/-- Storing in a hash that came up later leaves the older objects. -/
theorem dictInsert_surplus {m₀ : Machine} (h₀ : m.KeepsObjects m₀) (hk₀ : m₀.KeepsObjects m₁)
    (hd : Surplus m₀ m₁ d entries) (hk : k.isRef = true → ∃ o, m.heap.read k.toRef = .ok o)
    (h : Lays m m₁ low size f) :
    ∃ m₂, dictInsert d k v m₁ = .ok () m₂ ∧ Lays m m₂ low size f ∧ m₀.KeepsObjects m₂ ∧
      m₂.heap.pages.size = m₁.heap.pages.size ∧ Surplus m₀ m₂ d (entries.insert (m.keyId k) k v) := by
  have hid : dictKey k m₁ = .ok (m.keyId k) m₁ := by
    rw [dictKey_apply fun hr => (hk hr).imp fun o ho => h.objects k o ho, h.objects.keyId hk]
  have hes := hd.dict
  obtain ⟨g, hrun, hg⟩ : ∃ g : Object → Object,
      dictInsert d k v m₁ = .ok () (m₁.withHeap (m₁.heap.update d.toRef g)) ∧
      ∀ entries, g (.dict entries) = .dict (entries.insert (m.keyId k) k v) := by
    exact ⟨_, bind_of_ok hid, fun _ => rfl⟩
  have hkeep : m₀.KeepsObjects (m₁.withHeap (m₁.heap.update d.toRef g)) := by
    intro w o hw
    have hw₁ := hk₀ w o hw
    rw [withHeap, Heap.read_update, if_neg, hw₁]
    rintro ⟨hp, hc⟩
    have he := toRef_eq_of_read hes hw₁ hp hc
    exact hd.fresh o (he ▸ hw)
  refine ⟨_, hrun, ?_, hkeep, Heap.size_update .., hd.fresh, hd.isRef, ?_⟩
  · exact { h with inv := h.inv.update _ _, objects := h₀.trans hkeep }
  · rw [withHeap, Heap.read_update, if_pos ⟨rfl, rfl⟩, hes]
    exact congrArg _ (hg entries)

/-- The entries whose keys have no slot. -/
def Code.Params.surplus (p : Params) (es : List (Value × Value)) : List (Value × Value) :=
  es.filter fun e => (p.slotFor? e.1).isNone

/-- A hash after entries were stored in it, one after the other. -/
def Machine.stored (m : Machine) : Dict → List (Value × Value) → Dict :=
  List.foldl fun entries e => entries.insert (m.keyId e.1) e.1 e.2

/-- As long as keywords find a place, one after the other is put there. -/
theorem routeKeywords_append {m₀ : Machine} (h₀ : m.KeepsObjects m₀) (hc : low + size ≤ m.context.stack.capacity)
    (hslots : ∀ k ∈ p.keywords, k.slot.toNat < size) {rest : Option Value} (later : List (Value × Value))
    (hacc : ∀ e ∈ es, (p.slotFor? e.1).isSome = true ∨ rest.isSome = true ∨ p.delegate = true)
    (hkeys : ∀ e ∈ es, e.1.isRef = true → ∃ o, m.heap.read e.1.toRef = .ok o)
    (hk : m₀.KeepsObjects m₁) (hrest : ∀ d ∈ rest, Surplus m₀ m₁ d entries) (h : Lays m m₁ low size f) :
    ∃ m₂, (routeKeywords p ⟨low, size⟩ rest (es ++ later)).run m₁ = (routeKeywords p ⟨low, size⟩ rest later).run m₂ ∧
      Lays m m₂ low size (p.route f es) ∧ m₀.KeepsObjects m₂ ∧ (rest = none → m₂.heap = m₁.heap) ∧
      m₂.heap.pages.size = m₁.heap.pages.size ∧ ∀ d ∈ rest, Surplus m₀ m₂ d (m.stored entries (p.surplus es)) := by
  induction es generalizing m₁ f entries with
  | nil => exact ⟨m₁, rfl, h, hk, fun _ => rfl, rfl, hrest⟩
  | cons e es ih =>
    obtain ⟨k, v⟩ := e
    have hacc' : ∀ e ∈ es, _ := fun e he => hacc e (List.mem_cons_of_mem _ he)
    have hkeys' : ∀ e ∈ es, _ := fun e he => hkeys e (List.mem_cons_of_mem _ he)
    have hroute : p.route f ((k, v) :: es) = p.route ((p.slotFor? k).elim f fun s => Function.update f s v) es := rfl
    rw [hroute, List.cons_append, Params.surplus, List.filter_cons]
    conv in routeKeywords p _ rest ((k, v) :: _) => unfold routeKeywords
    cases hs : (if k.isSymbol = true then p.keywordSlot? k.toSymbol else none) with
    | some slot =>
      have hslot : p.slotFor? k = some slot.toNat := by
        rw [Params.slotFor?, hs]
        rfl
      obtain ⟨kw, hkw, he⟩ := List.mem_map.1 (Params.slotFor?_mem hslot)
      obtain ⟨m₂, hrun, h₂, hh⟩ := set_lays h (he ▸ hslots kw hkw) hc v
      have hkeep : m₁.KeepsObjects m₂ := fun w o hw => hh ▸ hw
      rw [hslot]
      obtain ⟨m₃, hrun₃, h₃, hk₃, hh₃, hsize₃, hrest₃⟩ := ih hacc' hkeys' (hk.trans hkeep) (fun d hd =>
        ⟨(hrest d hd).fresh, (hrest d hd).isRef, hh ▸ (hrest d hd).dict⟩) h₂
      exact ⟨m₃, (Attempt.run_lift_bind hrun).trans hrun₃, h₃, hk₃, fun hn => (hh₃ hn).trans hh,
        by rw [hsize₃, hh], hrest₃⟩
    | none =>
      have hslot : p.slotFor? k = none := by
        rw [Params.slotFor?, hs]
        rfl
      rw [hslot]
      cases rest with
      | some d =>
        obtain ⟨m₂, hrun, h₂, hk₂, hsize₂, hd₂⟩ :=
          dictInsert_surplus (v := v) h₀ hk (hrest d rfl) (hkeys _ List.mem_cons_self) h
        obtain ⟨m₃, hrun₃, h₃, hk₃, -, hsize₃, hrest₃⟩ :=
          ih hacc' hkeys' hk₂ (fun d' hd' => by cases hd'; exact hd₂) h₂
        exact ⟨m₃, (Attempt.run_lift_bind hrun).trans hrun₃, h₃, hk₃, nofun, hsize₃.trans hsize₂, hrest₃⟩
      | none =>
        have hdel : p.delegate = true := by
          rcases hacc _ List.mem_cons_self with h | h | h
          · rw [hslot] at h
            cases h
          · cases h
          · exact h
        rw [hdel]
        obtain ⟨m₃, hrun₃, h₃, hk₃, hh₃, hsize₃, -⟩ := @ih m₁ f entries hacc' hkeys' hk (fun d hd => nomatch hd) h
        exact ⟨m₃, hrun₃, h₃, hk₃, hh₃, hsize₃, fun d hd => nomatch hd⟩

/-- Every keyword finds its place when each has a slot, or when surplus ones are taken. -/
theorem routeKeywords_ends {m₀ : Machine} (h₀ : m.KeepsObjects m₀) (hc : low + size ≤ m.context.stack.capacity)
    (hslots : ∀ k ∈ p.keywords, k.slot.toNat < size) {rest : Option Value}
    (hacc : ∀ e ∈ es, (p.slotFor? e.1).isSome = true ∨ rest.isSome = true ∨ p.delegate = true)
    (hkeys : ∀ e ∈ es, e.1.isRef = true → ∃ o, m.heap.read e.1.toRef = .ok o)
    (hk : m₀.KeepsObjects m₁) (hrest : ∀ d ∈ rest, Surplus m₀ m₁ d entries) (h : Lays m m₁ low size f) :
    Attempt.Ends (routeKeywords p ⟨low, size⟩ rest es) m₁ n fun _ m₂ =>
      Lays m m₂ low size (p.route f es) ∧ m₀.KeepsObjects m₂ ∧ m₂.heap.pages.size = m₁.heap.pages.size ∧
      ∀ d ∈ rest, Surplus m₀ m₂ d (m.stored entries (p.surplus es)) := by
  obtain ⟨m₂, hrun, h₂, hk₂, -, hsize₂, hrest₂⟩ := routeKeywords_append h₀ hc hslots [] hacc hkeys hk hrest h
  rw [List.append_nil] at hrun
  exact .of_ok hrun ⟨(), rfl, h₂, hk₂, hsize₂, hrest₂⟩

end

end RubyMachine
