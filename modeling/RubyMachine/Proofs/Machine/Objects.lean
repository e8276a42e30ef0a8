import RubyMachine.Proofs.Machine.State

/-! Objects and classes in every logic. -/

namespace RubyMachine.Logic

open Known

variable {K : Known} {v : Value} {Φ : ∀ {α : Type}, Known → Exec α → (Known → α → Prop) → Prop} (L : Logic Φ)

include L

/-! ## Kinds -/

theorem deref? (hv : K.value v) :
    Φ K (Exec.deref? v) (Same K (Maybe (K.object (v.toRef.page, v.toRef.cell)))) := by
  unfold Exec.deref?
  split
  · exact L.seq (L.deref hv) fun o ho => L.ret ho
  · exact L.ret trivial

theorem asArray? (hv : K.value v) : Φ K (Exec.asArray? v) (Same K (Maybe fun a => ∀ w ∈ a, K.value w)) := by
  refine L.seq (L.deref? hv) fun o ho => ?_
  split
  · exact L.ret ho
  · exact L.ret trivial

theorem asString? (hv : K.value v) : Keeps Φ K (Exec.asString? v) := by
  refine L.seq (L.deref? hv) fun o _ => ?_
  split <;> exact L.ret trivial

theorem asDict? (hv : K.value v) :
    Φ K (Exec.asDict? v) (Same K (Maybe fun d => ∀ e ∈ d.entries, K.value e.key ∧ K.value e.value)) := by
  refine L.seq (L.deref? hv) fun o ho => ?_
  split
  · exact L.ret ho
  · exact L.ret trivial

theorem asProc? (hv : K.value v) :
    Φ K (Exec.asProc? v) (Same K (Maybe fun p => K.value p.self ∧ K.value p.outer)) := by
  refine L.seq (L.deref? hv) fun o ho => ?_
  split
  · exact L.ret ho
  · exact L.ret trivial

theorem asSplat? (hv : K.value v) : Φ K (Exec.asSplat? v) (Same K (Maybe K.value)) := by
  refine L.seq (L.deref? hv) fun o ho => ?_
  split
  · exact L.ret ho
  · exact L.ret trivial

theorem asModule? (hv : K.value v) : Φ K (Exec.asModule? v) (Same K (Maybe K.cls)) := by
  refine L.seq (L.deref? hv) fun o ho => ?_
  split
  · exact L.ret ho
  · exact L.ret trivial

theorem asFiber? (hv : K.value v) : Φ K (Exec.asFiber? v) (Same K (Maybe K.fib)) := by
  refine L.seq (L.deref? hv) fun o ho => ?_
  split
  · exact L.ret ho
  · exact L.ret trivial

theorem asEnumerator? (hv : K.value v) :
    Φ K (Exec.asEnumerator? v) (Same K (Maybe fun e => K.iteration e.iteration ∧ K.value e.fiber)) := by
  refine L.seq (L.deref? hv) fun o ho => ?_
  split
  · exact L.ret ho
  · exact L.ret trivial

theorem arrayOf (hv : K.value v) : Φ K (Exec.arrayOf v) (Same K fun a => ∀ w ∈ a, K.value w) :=
  L.seq (L.asArray? hv) fun _ h => L.demand h

theorem stringOf (hv : K.value v) : Keeps Φ K (Exec.stringOf v) :=
  L.seq (L.asString? hv) fun _ _ => L.demand (maybe_true _)

theorem dictOf (hv : K.value v) :
    Φ K (Exec.dictOf v) (Same K fun d => ∀ e ∈ d.entries, K.value e.key ∧ K.value e.value) :=
  L.seq (L.asDict? hv) fun _ h => L.demand h

theorem procOf (hv : K.value v) : Φ K (Exec.procOf v) (Same K fun p => K.value p.self ∧ K.value p.outer) :=
  L.seq (L.asProc? hv) fun _ h => L.demand h

theorem moduleOf (hv : K.value v) : Φ K (Exec.moduleOf v) (Same K K.cls) :=
  L.seq (L.asModule? hv) fun _ h => L.demand h

theorem fiberOf (hv : K.value v) : Φ K (Exec.fiberOf v) (Same K K.fib) :=
  L.seq (L.asFiber? hv) fun _ h => L.demand h

theorem enumeratorOf (hv : K.value v) :
    Φ K (Exec.enumeratorOf v) (Same K fun e => K.iteration e.iteration ∧ K.value e.fiber) :=
  L.seq (L.asEnumerator? hv) fun _ h => L.demand h

theorem asScope (hv : K.value v) : Φ K (Exec.asScope v) (Same K (K.scope (v.toRef.page, v.toRef.cell))) := by
  refine L.seq (L.deref hv) fun o ho => ?_
  split
  · exact L.ret ho
  · exact L.throw rfl

/-! ## New objects -/

theorem newArray {vs : List Value} (hv : K.values vs) : Φ K (Exec.newArray vs) Known.value :=
  L.alloc rfl fun _ v h => hv v (by simpa using h)

theorem newString (s : String) : Φ K (Exec.newString s) Known.value := L.alloc rfl fun _ => trivial

theorem newDict : Φ K Exec.newDict Known.value := L.alloc rfl fun _ e h => absurd h (by simp)

theorem newObject {c : Nat} (hc : K.cls c) : Φ K (Exec.newObject c) Known.value :=
  L.alloc rfl fun _ => ⟨hc, fun v h => absurd h (by simp)⟩

theorem pack {vs : List Value} (hv : K.values vs) : Φ K (Exec.pack vs) Known.value := by
  unfold Exec.pack
  split
  · exact L.pure nil
  · exact L.pure (hv _ (by simp))
  · exact L.newArray hv

/-! ## Dictionaries -/

theorem dictKey (hv : K.value v) : Keeps Φ K (Exec.dictKey v) := by
  refine L.seq (L.asString? hv) fun r _ => ?_
  cases r <;> exact L.ret trivial

omit L in
theorem value_find? {d : Dict} (hd : ∀ e ∈ d.entries, K.value e.key ∧ K.value e.value) (id : DictKey) :
    Maybe K.value (d.find? id) := by
  unfold Dict.find?
  cases h : d.entries.find? fun e => e.id == id with
  | none => trivial
  | some e => exact (hd e (Array.mem_of_find?_eq_some h)).2

/-! ## Classes -/

omit L in
theorem mem_fixed {c : Nat} (h : c ≤ ClassTable.collector) : K.cls c := K.fixed c (.inl h)

omit L in
theorem cls_object {m : Machine} (hm : K.machine m) {x : Nat × Nat} {o : Object} (ho : K.object x o) :
    K.cls (Exec.objectClass m o) := by
  cases o with
  | «instance» c _ => exact ho.1
  | module c =>
    have he := hm.classes c ho
    unfold Exec.objectClass ClassTable.classOf
    dsimp only
    split
    · exact he.singleton _ ‹_›
    · split <;> exact mem_fixed (by decide)
  | _ => exact mem_fixed (Nat.le_of_ble_eq_true rfl)

theorem classOf (hv : K.value v) : Φ K (Exec.classOf v) (Same K K.cls) := by
  unfold Exec.classOf
  repeat' split
  any_goals exact L.ret (mem_fixed (by decide))
  refine L.look (fun _ _ => rfl) fun m hm => ?_
  exact L.seq (L.deref hv) fun o ho => L.ret (cls_object hm ho)

theorem className (c : Nat) : Keeps Φ K (Exec.className c) := by
  refine L.look (fun _ _ => rfl) fun m _ => ?_
  exact L.check rfl fun _ => L.ret trivial

/-! ## Global variables -/

omit L in
theorem mem_bindName {α : Type} {name : Ident} {a : α} {l : List (Ident × α)} {x : Ident × α}
    (h : x ∈ bindName name a l) : x ∈ l ∨ x.2 = a := by
  induction l with
  | nil => exact .inr (by simp_all [bindName])
  | cons y l ih =>
    obtain ⟨n, b⟩ := y
    unfold bindName at h
    split at h
    · rcases List.mem_cons.mp h with rfl | h
      · exact .inr rfl
      · exact .inl (List.mem_cons_of_mem _ h)
    · rcases List.mem_cons.mp h with rfl | h
      · exact .inl (by simp)
      · rcases ih h with h | h
        · exact .inl (List.mem_cons_of_mem _ h)
        · exact .inr h

omit L in
theorem value_lookup {l : List (Ident × Value)} (hl : ∀ x ∈ l, K.value x.2) (name : Ident) :
    Maybe K.value (l.lookup name) := by
  induction l with
  | nil => trivial
  | cons y l ih =>
    obtain ⟨n, v⟩ := y
    rw [List.lookup_cons]
    split
    · exact hl (n, v) (by simp)
    · exact ih fun x hx => hl x (by simp [hx])

theorem getGlobal (name : Ident) : Φ K (Exec.getGlobal name) (Same K K.value) :=
  L.look (fun _ _ => rfl) fun _ hm => L.ret ((value_lookup hm.globals name).getD nil)

theorem setGlobal (name : Ident) (hv : K.value v) : Keeps Φ K (Exec.setGlobal name v) := by
  refine L.adjust (fun _ _ => rfl) fun m hm => ⟨⟨rfl, rfl, rfl, rfl, rfl, rfl, rfl, rfl, fun _ => rfl, fun h => h⟩,
    .of_stack _ rfl rfl rfl rfl, .of_eq rfl rfl rfl rfl, ?_, trivial⟩
  refine { hm with globals := fun x hx => ?_ }
  rcases mem_bindName hx with h | h
  · exact hm.globals x h
  · exact h ▸ hv

/-! ## Definitions -/

theorem module {c : Nat} (hc : K.cls c) : Φ K (Exec.module c) (Same K K.module) :=
  L.look (fun _ _ => rfl) fun _ hm => L.ret (hm.classes c hc)

theorem constModule? {c : Nat} (hc : K.cls c) (name : Ident) :
    Φ K (Exec.constModule? c name) (Same K (Maybe K.cls)) := by
  refine L.seq (L.module hc) fun e he => ?_
  have hv := value_lookup he.consts name
  split
  · rename_i v h
    rw [h] at hv
    exact L.asModule? hv
  · exact L.ret trivial

theorem defineModule {parent : Nat} {super : Option Nat} (hp : K.cls parent) (hs : Maybe K.cls super)
    (name : Ident) (isModule : Bool) : Φ K (Exec.defineModule parent name super isModule) fun K' c =>
      K'.cls c ∧ K'.changes = K.changes := by
  refine L.seq (L.constModule? hp name) fun r hr => ?_
  cases r with
  | some id => exact L.pure ⟨hr, rfl⟩
  | none =>
    refine L.enroll (fun _ => .inr hp) fun c hc => ?_
    split at hc
    · subst hc
      exact hs
    · cases hc
      exact hs.getD (mem_fixed (by decide))

theorem singletonClass (c : Nat) (hc : K.cls c) :
    Φ K (Exec.singletonClass c) fun K' s => K'.cls s ∧ K'.changes = K.changes := by
  induction c using Nat.strong_induction_on generalizing K with
  | _ c ih =>
    rw [Exec.singletonClass]
    refine L.seq (L.module hc) fun e he => ?_
    split
    · exact L.pure ⟨he.singleton _ ‹_›, rfl⟩
    have attached (K' : Known) (hle : K ≤ K') (hch : K'.changes = K.changes) (super : Nat) (hs : K'.cls super) :
        Φ K' (Exec.attach c e.name super) fun K'' s => K''.cls s ∧ K''.changes = K.changes :=
      L.mono (L.attach (hle.cls hc) hs) fun _ _ _ h => ⟨h.1, h.2.trans hch⟩
    have plain (super : Nat) (hs : K.cls super) :
        Φ K (Pure.pure super >>= Exec.attach c e.name) fun K'' s => K''.cls s ∧ K''.changes = K.changes := by
      rw [pure_bind]
      exact attached K (le_refl K) rfl super hs
    dsimp only
    split
    · exact plain _ (mem_fixed (by decide))
    split
    · split
      · exact L.bind (ih _ ‹_› (he.super _ ‹_›)) fun K' s hle h => attached K' hle h.2 s h.1
      · exact plain _ (mem_fixed (by decide))
    · exact plain _ (mem_fixed (by decide))

omit L in
theorem function_plain {f : Function} (hb : ∀ seq, f.body ≠ .code seq) (ho : f.owner = none)
    (hc : f.constSites = #[]) : K.function f :=
  ⟨fun seq h => absurd h (hb seq), fun c h => absurd h (by simp [ho]), fun c h => absurd h (by simp [hc])⟩

theorem defineBuiltin (e : Builtin.Entry) (he : K.cls e.owner) :
    Φ K (Exec.defineBuiltin e) fun _ _ => True := by
  have named (K' : Known) (owner : Nat) (ho : K'.cls owner) : Φ K' (do
      let name ← Exec.intern e.name
      Exec.addMethod owner name { name, body := .builtin e.builtin, arity := e.arity }) fun _ _ => True := by
    refine L.seq (L.intern e.name) fun name _ => ?_
    exact L.ofSame (L.addMethod ho (function_plain (by simp) rfl rfl) (by simp) rfl rfl) fun _ _ => trivial
  unfold Exec.defineBuiltin
  dsimp only
  split
  · exact L.bind (L.singletonClass e.owner he) fun K' owner _ h => named K' owner h.1
  · rw [pure_bind]
    exact named K e.owner he

theorem thenAddMethod {β : Type} {c : Nat} {name : Ident} {f : Function} {R : Known → β → Prop} {rest : Exec β}
    (hm : Keeps Φ K (Exec.addMethod c name f)) (hr : Φ K rest R) : Φ K (do
      let fn ← Exec.addFunction f
      Exec.defineMethod c name fn
      rest) R := by
  have h := L.seq hm fun _ _ => hr
  rwa [Exec.addMethod, bind_assoc] at h

theorem defineAttr {c : Nat} (hc : K.cls c) (name : String) (reader writer : Bool) :
    Keeps Φ K (Exec.defineAttr c name reader writer) := by
  refine L.seq (L.intern _) fun ivar _ => ?_
  have written : Keeps Φ K (if writer then do
      let id ← Exec.intern (name ++ "=")
      Exec.addMethod c id { name := id, body := .attrWriter ivar, arity := .exactly 1 }
    else Pure.pure ()) := by
    split
    · refine L.seq (L.intern _) fun id _ => ?_
      exact L.addMethod hc (function_plain (by simp) rfl rfl) (by simp) rfl rfl
    · exact L.ret trivial
  dsimp only
  split
  · refine L.seq (L.intern _) fun id _ => ?_
    exact L.thenAddMethod (L.addMethod hc (function_plain (by simp) rfl rfl) (by simp) rfl rfl) written
  · exact written

/-! ## Lookup -/

omit L in
theorem cls_chain {m : Machine} (hm : K.machine m) {c : Nat} (hc : K.cls c) : ∀ x ∈ m.classes.chain c, K.cls x := by
  induction c using Nat.strong_induction_on with
  | _ c ih =>
    intro x hx
    rw [ClassTable.chain] at hx
    split at hx
    · simp at hx
    split at hx
    · split at hx
      · rcases List.mem_cons.mp hx with rfl | hx
        · exact hc
        · exact ih _ ‹_› ((hm.classes c hc).super _ ‹_›) x hx
      · rwa [List.mem_singleton.mp hx]
    · rwa [List.mem_singleton.mp hx]

omit L in
theorem cls_ancestors {m : Machine} (hm : K.machine m) {c : Nat} (hc : K.cls c) :
    ∀ x ∈ m.classes.ancestors c, K.cls x := by
  intro x hx
  obtain ⟨y, hy, hx⟩ := List.mem_flatMap.mp hx
  have hyc := cls_chain hm hc y hy
  rcases List.mem_cons.mp hx with rfl | hx
  · exact hyc
  · exact (hm.classes y hyc).includes x (List.mem_reverse.mp hx)

omit L in
theorem value_findConst? {m : Machine} (hm : K.machine m) {c : Nat} (hc : K.cls c) (name : Ident) :
    Maybe K.value (m.classes.findConst? c name) := by
  cases h : m.classes.findConst? c name with
  | none => trivial
  | some v =>
    obtain ⟨x, hx, hv⟩ := List.exists_of_findSome?_eq_some h
    have hxc : K.cls x := by
      rcases List.mem_append.mp hx with hx | hx
      · exact cls_ancestors hm hc x hx
      · rw [List.mem_singleton.mp hx]
        exact mem_fixed (by decide)
    have := value_lookup (hm.classes x hxc).consts name
    rwa [hv] at this

theorem findConst? {c : Option Nat} (hc : Maybe K.cls c) (name : Ident) :
    Φ K (Exec.findConst? c name) (Same K (Maybe K.value)) :=
  L.look (fun _ _ => rfl) fun _ hm => L.ret (value_findConst? hm (hc.getD (mem_fixed (by decide))) name)

omit L in
theorem cls_visible {m : Machine} (hm : K.machine m) {c : Nat} (hc : K.cls c) : K.cls (m.classes.visible c) := by
  unfold ClassTable.visible
  cases h : (m.classes.chain c).find? fun c => (m.classes.entry c).attached.isNone with
  | none => exact hc
  | some x => exact cls_chain hm hc x (List.mem_of_find?_eq_some h)

end RubyMachine.Logic
