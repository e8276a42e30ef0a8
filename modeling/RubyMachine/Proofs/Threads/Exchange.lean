import RubyMachine.Proofs.Threads.Accounts
import RubyMachine.Proofs.Threads.Entries

/-! What is left to be done below a call does not matter to it. While a thread is at something, other continuations may
stand below: all that is done comes to the same, and leaves them where they stand. -/

namespace RubyMachine

open Exec

/-- Other continuations, for those that are left at the end of a thread: as many, that pull from the same fibers. -/
structure Exchange where
  thread : Option Nat
  /-- The number of slots of the stack of the thread. -/
  room : Nat
  old : List Kont
  new : List Kont
  ne : old ≠ []
  length_eq : new.length = old.length
  driven : drivenFibers new = drivenFibers old

namespace Exchange

variable (e : Exchange)

def konts (t : Option Nat) (ks : List Kont) : List Kont :=
  if t = e.thread ∧ e.old.length ≤ ks.length then ks.take (ks.length - e.old.length) ++ e.new else ks

abbrev on (m : Machine) : Machine := m.mapKonts e.konts

/-- What is exchanged stands on a thread, if the thread is the one that it is for. -/
def Under (x : Context) : Prop := x.fiber = e.thread → x.stack.capacity = e.room ∧ ∃ ks, x.konts = ks ++ e.old

variable {e} {t : Option Nat} {x x' : Context}

theorem konts_of_ne (h : t ≠ e.thread) (ks : List Kont) : e.konts t ks = ks := if_neg fun hc => h hc.1

theorem konts_append (ks : List Kont) : e.konts e.thread (ks ++ e.old) = ks ++ e.new := by
  have long : e.old.length ≤ (ks ++ e.old).length := by simp
  rw [konts, if_pos ⟨rfl, long⟩, List.length_append, Nat.add_sub_cancel, List.take_left]

theorem konts_nil : e.konts t [] = [] := by
  refine if_neg fun hc => e.ne (List.length_eq_zero_iff.mp ?_)
  simpa using hc.2

theorem length_konts (ks : List Kont) : (e.konts t ks).length = ks.length := by
  unfold konts
  split
  · rename_i hc
    have := hc.2
    simp only [List.length_append, List.length_take, e.length_eq]
    omega
  · rfl

theorem Under.cons (h : e.Under x) (k : Kont) : e.konts x.fiber (k :: x.konts) = k :: e.konts x.fiber x.konts := by
  by_cases ht : x.fiber = e.thread
  · obtain ⟨-, ks, hk⟩ := h ht
    rw [ht, hk, konts_append, ← List.cons_append, konts_append, List.cons_append]
  · rw [konts_of_ne ht, konts_of_ne ht]

theorem Under.driven_konts (h : e.Under x) : drivenFibers (e.konts x.fiber x.konts) = drivenFibers x.konts := by
  by_cases ht : x.fiber = e.thread
  · obtain ⟨-, ks, hk⟩ := h ht
    have driven := e.driven
    unfold drivenFibers at driven ⊢
    rw [ht, hk, konts_append, List.filterMap_append, List.filterMap_append, driven]
  · rw [konts_of_ne ht]

/-- More may be left to be done on a thread, and its stack may be filled. -/
theorem Under.mono (h : e.Under x) (hf : x'.fiber = x.fiber) (hs : x'.stack.capacity = x.stack.capacity)
    (hk : ∃ ks, x'.konts = ks ++ x.konts) : e.Under x' := by
  intro ht
  obtain ⟨hc, ks, hx⟩ := h (hf ▸ ht)
  obtain ⟨ks', hx'⟩ := hk
  exact ⟨hs.trans hc, ks' ++ ks, by rw [hx', hx, List.append_assoc]⟩

/-- What is exchanged stands on its thread, wherever that is. A fiber that has none is not started any more. -/
structure Holds (e : Exchange) (m : Machine) : Prop where
  running : e.Under m.context
  waiting : ∀ x ∈ m.waiting, e.Under x
  stored : ∀ i x, (m.fibers.getD i default).context = some x →
    e.Under x ∨ (m.fibers.getD i default).state = .dead ∧ x.konts = []
  started : ∀ i, e.thread = some i → i < m.fibers.size ∧
    ((m.fibers.getD i default).state = .dead ∨ (m.fibers.getD i default).active = true ∨
      (m.fibers.getD i default).context ≠ none)

namespace Holds

variable {m m' : Machine} {id : Nat} {f : Fiber → Fiber} {rest : List Context}

theorem of_eq (h : e.Holds m) (hc : e.Under m'.context) (hw : m'.waiting = m.waiting) (hf : m'.fibers = m.fibers) :
    e.Holds m' := ⟨hc, hw ▸ h.waiting, hf ▸ h.stored, hf ▸ h.started⟩

theorem still (h : e.Holds m) (hs : m.Still m') : e.Holds m' :=
  h.of_eq (h.running.mono hs.fiber hs.capacity ⟨[], hs.konts⟩) hs.waiting hs.fibers

/-- A fiber may be changed if it goes on to have been started. -/
theorem modify (h : e.Holds m)
    (hx : ∀ x, (f (m.fibers.getD id default)).context = some x →
      e.Under x ∨ (f (m.fibers.getD id default)).state = .dead ∧ x.konts = [])
    (hs : (f (m.fibers.getD id default)).state = .dead ∨ (f (m.fibers.getD id default)).active = true ∨
      (f (m.fibers.getD id default)).context ≠ none) : e.Holds { m with fibers := m.fibers.modify id f } where
  running := h.running
  waiting := h.waiting
  stored i x hc := by
    dsimp only at hc ⊢
    rcases Logic.getD_modify m.fibers id i f with he | ⟨rfl, he⟩
    · rw [he] at hc ⊢
      exact h.stored i x hc
    · rw [he] at hc ⊢
      exact hx x hc
  started i hi := by
    dsimp only
    rw [Array.size_modify]
    obtain ⟨hlt, hi⟩ := h.started i hi
    refine ⟨hlt, ?_⟩
    rcases Logic.getD_modify m.fibers id i f with he | ⟨rfl, he⟩
    · exact he ▸ hi
    · exact he ▸ hs

theorem push (h : e.Holds m) {y : Fiber} (hy : y.context = none) : e.Holds { m with fibers := m.fibers.push y } where
  running := h.running
  waiting := h.waiting
  stored i x hc := by
    dsimp only at hc ⊢
    by_cases hi : i = m.fibers.size
    · subst hi
      rw [getD_push_self, hy] at hc
      cases hc
    · rw [getD_push_of_ne y hi] at hc ⊢
      exact h.stored i x hc
  started i hi := by
    dsimp only
    obtain ⟨hlt, hi⟩ := h.started i hi
    rw [Array.size_push, getD_push_of_ne y hlt.ne]
    exact ⟨hlt.trans (Nat.lt_succ_self _), hi⟩

/-- Threads that wait may go on, and the running one may wait. -/
theorem switch (h : e.Holds m) (hc : e.Under x) (hw : ∀ y ∈ rest, e.Under y) :
    e.Holds { m with context := x, waiting := rest } := ⟨hc, hw, h.stored, h.started⟩

theorem enter (h : e.Holds m) (id : Nat) (hx : e.Under x) : e.Holds (m.enter id x) := by
  have entered : e.Holds { m with fibers := m.fibers.modify id Fiber.entered } :=
    h.modify (fun _ hc => nomatch hc) (.inr (.inl rfl))
  exact entered.switch hx (List.forall_mem_cons.mpr ⟨h.running, h.waiting⟩)

theorem leave (h : e.Holds m) (hw : m.waiting = x :: rest)
    (hx : ∀ x, (f (m.fibers.getD id default)).context = some x →
      e.Under x ∨ (f (m.fibers.getD id default)).state = .dead ∧ x.konts = [])
    (hs : (f (m.fibers.getD id default)).state = .dead ∨ (f (m.fibers.getD id default)).context ≠ none) :
    e.Holds (m.leave id f x rest) := by
  have hall := h.waiting
  rw [hw, List.forall_mem_cons] at hall
  exact (h.modify hx (hs.imp_right .inr)).switch hall.1 hall.2

theorem ended (h : e.Holds m) (id : Nat) : e.Holds { m with fibers := m.fibers.modify id Fiber.ended } :=
  h.modify (fun _ hc => nomatch hc) (.inl rfl)

/-- The host may give up fibers. -/
theorem steady (h : e.Holds m) (hs : m.Steady m') (hc : m'.context = m.context) : e.Holds m' where
  running := hc ▸ h.running
  waiting := hs.waiting ▸ h.waiting
  stored i x hx := by
    rcases (hs.fibers i).context with he | ⟨he, -⟩
    · exact (h.stored i x (he ▸ hx)).imp_right fun hd => ⟨(hs.fibers i).dead hd.1, hd.2⟩
    · cases he.symm.trans hx
  started i hi := by
    obtain ⟨hlt, hi⟩ := h.started i hi
    refine ⟨hlt.trans_le hs.size, ?_⟩
    rcases hi with hd | ha | hx
    · exact .inl ((hs.fibers i).dead hd)
    · exact .inr (.inl ((hs.fibers i).active.trans ha))
    · rcases (hs.fibers i).context with he | ⟨-, hd⟩
      · exact .inr (.inr (he ▸ hx))
      · exact .inl hd

end Holds

/-! ## Computations keep what is exchanged where it stands -/

open Keeping

variable {α β : Type} {K : Known} {m : Machine}

theorem kept_onHeap (e : Exchange) (x : HeapM Object α) : Kept e.Holds (onHeap x) := fun m hm => by
  unfold after onHeap
  dsimp only
  cases x m.heap <;> exact hm.still (.of_eq rfl rfl rfl rfl)

theorem keeping_releaseFiber (e : Exchange) (id : Nat) (hi : K.fib id) :
    Keeping e.Holds K (Exec.releaseFiber id) (Same K fun _ => True) :=
  (basics e.Holds).releaseFiberBy whole (fun id => changed fun _ _ hm => ⟨hm.ended id, trivial⟩)
    (fun _ _ => changed fun _ _ hm => ⟨hm.of_eq hm.running rfl rfl, trivial⟩) hi

theorem stable (e : Exchange) : Stable e.Holds where
  alloc _ := kept_onHeap e _
  update _ _ _ := kept_onHeap e _
  setEnabled _ := kept_onHeap e _
  classes hm := hm.still (.of_eq rfl rfl rfl rfl)
  lookups hm := hm.still (.of_eq rfl rfl rfl rfl)
  functions hm _ := hm.still (.of_eq rfl rfl rfl rfl)
  addFunction hm _ := hm.still (.of_eq rfl rfl rfl rfl)
  newFiber _ _ := kept_get.bind fun _ => (kept_onHeap e _).bind fun _ =>
    Kept.bind (fun _ hm => hm.push rfl) fun _ => kept_pure _
  releaseFiber := keeping_releaseFiber e _
  steady hm _ _ hs := hm.still hs

/-- A computation comes to the same with the other continuations, and leaves them where they stand. -/
def Framed (e : Exchange) {α : Type} (K : Known) (x : Exec α) (R : Known → α → Prop) : Prop :=
  K.All → ∀ m, e.Holds m → x (e.on m) = mapState e.on (x m) ∧
    ∀ a m', x m = .ok a m' → e.Holds m' ∧ ∃ K', K ≤ K' ∧ K'.All ∧ R K' a

namespace Framed

variable {R : Known → α → Prop} {y : Exec α}

theorem of_keeping (hk : Keeping e.Holds K y R) (hy : ∀ m, e.Holds m → y (e.on m) = mapState e.on (y m)) :
    Framed e K y R := by
  intro hK m hm
  obtain ⟨K', hle, hK', hm', hR⟩ := hk hK m hm
  exact ⟨hy m hm, fun a m' h => ⟨after_of_ok h ▸ hm', K', hle, hK', hR a m' h⟩⟩

theorem of_detached (hk : Keeping e.Holds K y R) (hy : y.Detached) : Framed e K y R := of_keeping hk fun m _ => hy _ _ m

theorem pure {a : α} (h : R K a) : Framed e K (Pure.pure a) R := of_detached (Keeping.pure h) (.pure a)

theorem bind {R' : Known → β → Prop} {f : α → Exec β} (hy : Framed e K y R)
    (hf : ∀ K' a, K ≤ K' → R K' a → Framed e K' (f a) R') : Framed e K (y >>= f) R' := by
  intro hK m hm
  obtain ⟨he, hr⟩ := hy hK m hm
  rw [bind_apply, bind_apply, he]
  cases hym : y m with
  | error d m₁ => exact ⟨rfl, fun a m' h => nomatch h⟩
  | ok a m₁ =>
    obtain ⟨hm₁, K₁, h₁, hK₁, hR₁⟩ := hr a m₁ hym
    obtain ⟨he', hr'⟩ := hf K₁ a h₁ hR₁ hK₁ m₁ hm₁
    refine ⟨he', fun b m' h => ?_⟩
    obtain ⟨hm', K', hle, hK', hR'⟩ := hr' b m' h
    exact ⟨hm', K', h₁.trans hle, hK', hR'⟩

theorem look {f : Machine → Exec α} (blind : ∀ κ m, f (m.mapKonts κ) = f m) (h : ∀ m, K.machine m → Framed e K (f m) R) :
    Framed e K (get >>= f) R := by
  intro hK m hm
  obtain ⟨he, hr⟩ := h m (hK.machine m) hK m hm
  have exchanged : (get >>= f) (e.on m) = f (e.on m) (e.on m) := rfl
  exact ⟨exchanged.trans ((congrFun (blind _ m) _).trans he), hr⟩

theorem fiber {id : Nat} {f : Fiber → Exec α} (hi : K.fib id) (blind : ∀ κ x, f (x.mapKonts κ) = f x)
    (h : ∀ x, K.fiber x → Framed e K (f x) R) : Framed e K (Exec.fiber id >>= f) R := by
  intro hK m hm
  obtain ⟨he, hr⟩ := h (m.fibers.getD id default) ((hK.machine m).fibers id hi) hK m hm
  have there : (e.on m).fibers.getD id default = (m.fibers.getD id default).mapKonts e.konts := Fiber.getD_mapContext _ _ _
  exact ⟨(congrArg (f · (e.on m)) there).trans ((congrFun (blind _ _) _).trans he), hr⟩

theorem views (e : Exchange) : Views (Framed e) where
  pure := pure
  bind := bind
  throw h := of_detached ((basics e.Holds).throw h) (.throw _)
  look := look
  fiber := fiber

/-! ### Giving up fibers -/

theorem map_modify {f f' : Fiber → Fiber} (hf : ∀ x : Fiber, f' (x.mapKonts e.konts) = (f x).mapKonts e.konts)
    (fibers : Array Fiber) (id : Nat) : (fibers.map (Fiber.mapKonts e.konts)).modify id f' =
      (fibers.modify id f).map (Fiber.mapKonts e.konts) := by
  refine Array.ext_getElem? fun i => ?_
  simp only [Array.getElem?_modify, Array.getElem?_map]
  split
  · rw [Option.map_map, Option.map_map]
    exact congrArg (Option.map · _) (funext hf)
  · rfl

theorem context_on (m : Machine) (id : Nat) : ((e.on m).fibers.getD id default).context =
    (m.fibers.getD id default).context.map (Context.mapKonts e.konts) :=
  congrArg Fiber.context (Fiber.getD_mapContext m.fibers _ id)

/-- The same is to be given up with a thread that was put aside. -/
theorem remains_on (h : e.Under x ∨ x.konts = []) : (x.mapKonts e.konts).remains = x.remains := by
  have driven : drivenFibers (e.konts x.fiber x.konts) = drivenFibers x.konts := by
    rcases h with h | h
    · exact h.driven_konts
    · rw [h, konts_nil]
  exact congrArg (fun ids : List Nat => ids.map Disposal.fiber ++ [Disposal.stack x.stack]) driven

theorem disposalFuel_on (m : Machine) : disposalFuel (e.on m) = mapState e.on (disposalFuel m) := by
  have fuel : (m.fibers.map (Fiber.mapKonts e.konts)).foldl
      (fun n f => n + (1 + (f.context.map fun c => c.konts.length + 1).getD 0)) 1 =
      m.fibers.foldl (fun n f => n + (1 + (f.context.map fun c => c.konts.length + 1).getD 0)) 1 := by
    rw [Array.foldl_map]
    refine congrArg (fun work => m.fibers.foldl work 1) (funext fun n => funext fun f => ?_)
    have same : (f.mapKonts e.konts).context.map (fun c => c.konts.length + 1) =
        f.context.map fun c => c.konts.length + 1 := by
      refine (Option.map_map ..).trans (congrArg (Option.map · _) (funext fun c => ?_))
      exact congrArg (· + 1) (length_konts c.konts)
    rw [same]
  exact congrArg (EStateM.Result.ok · (e.on m)) fuel

theorem dispose_on (fuel : Nat) (ds : List Disposal) (hm : e.Holds m) :
    dispose fuel ds (e.on m) = mapState e.on (dispose fuel ds m) := by
  induction fuel generalizing ds m with
  | zero => rfl
  | succ fuel ih =>
    cases ds with
    | nil => rfl
    | cons d rest =>
      cases d with
      | stack s =>
        have given : e.Holds { m with pool := m.pool.put s } := hm.of_eq hm.running rfl rfl
        exact ih rest given
      | fiber id =>
        have there : ((e.on m).fibers.getD id default).context.toList.flatMap Context.remains =
            (m.fibers.getD id default).context.toList.flatMap Context.remains := by
          have stored := hm.stored id
          rw [context_on]
          cases hc : (m.fibers.getD id default).context with
          | none => rfl
          | some x => exact congrArg (· ++ []) (remains_on ((stored x hc).imp_right And.right))
        have gone : (e.on m).fibers.modify id Fiber.ended = (m.fibers.modify id Fiber.ended).map (Fiber.mapKonts e.konts) :=
          map_modify (f := Fiber.ended) (fun _ => rfl) m.fibers id
        rw [Machine.Accounted.dispose_fiber, Machine.Accounted.dispose_fiber, there]
        refine Eq.trans ?_ (ih _ (hm.ended id))
        exact congrArg (fun fibers => dispose fuel _ { e.on m with fibers }) gone

theorem releaseFiber_on (id : Nat) (hm : e.Holds m) : releaseFiber id (e.on m) = mapState e.on (releaseFiber id m) := by
  obtain ⟨n, hn, -⟩ := Machine.Accounted.burden_lt_disposalFuel m
  have exchanged : disposalFuel (e.on m) = .ok n (e.on m) := by rw [disposalFuel_on, hn, mapState]
  rw [releaseFiber, bind_of_ok exchanged, bind_of_ok hn]
  exact dispose_on n _ hm

theorem logic (e : Exchange) : Logic (Framed e) :=
  { views e with
    adjust := fun blind hf => of_keeping ((stable e).logic.adjust blind hf) fun m _ =>
      congrArg (fun r : _ × Machine => EStateM.Result.ok r.1 r.2) (blind e.konts m)
    deref := fun h => of_detached ((stable e).logic.deref h) (.deref _)
    inspect := fun h => of_detached ((stable e).logic.inspect h) (.inspect _)
    alloc := fun h h' => of_detached ((stable e).logic.alloc h h') (.alloc _)
    update := fun h h' => of_detached ((stable e).logic.update h h') (.update _ _)
    dictInsert := fun h h' h'' => of_detached ((stable e).logic.dictInsert h h' h'') (.dictInsert _ _ _)
    getIvar := fun h => of_detached ((stable e).logic.getIvar h) (.getIvar _ _)
    setIvar := fun h h' => of_detached ((stable e).logic.setIvar h h') (.setIvar _ _ _)
    enroll := fun h h' => of_detached ((stable e).logic.enroll h h') (.enroll _ _ _ _)
    attach := fun h h' => of_detached ((stable e).logic.attach h h') (.attach _ _ _)
    mixIn := fun h h' h'' => of_detached ((stable e).logic.mixIn h h' h'') (.mixIn _ _)
    addMethod := fun h h' hb hs hc => of_detached ((stable e).logic.addMethod h h' hb hs hc) (.addMethod _ _ _)
    setConst := fun h h' h'' => of_detached ((stable e).logic.setConst h h' h'') (.setConst _ _ _)
    defineMethod := fun h h' => of_detached ((stable e).logic.defineMethod h h') (.defineMethod _ _ _)
    setOwner := fun h => of_detached ((stable e).logic.setOwner h) (.setOwner _ _)
    findMethod? := of_detached (stable e).logic.findMethod? (.findMethod? _ _)
    findMethodAt? := fun h => of_detached ((stable e).logic.findMethodAt? h) (.findMethodAt? _ _ _ _)
    findConstAt? := fun h => of_detached ((stable e).logic.findConstAt? h) (.findConstAt? _ _ _)
    newFiber := fun h h' => of_detached ((stable e).logic.newFiber h h') (.newFiber _ _)
    releaseFiber := fun h => of_keeping ((stable e).logic.releaseFiber h) fun _ hm => releaseFiber_on _ hm
    setEnabled := of_detached (stable e).logic.setEnabled (.onHeap _) }

/-! ### Switching -/

variable {id : Nat} {f : Fiber → Fiber} {rest : List Context} {v : Value} {vs : List Value}

theorem enter_on (m : Machine) (id : Nat) (x : Context) :
    (e.on m).enter id (x.mapKonts e.konts) = e.on (m.enter id x) :=
  congrArg (fun fibers => { e.on (m.enter id x) with fibers }) (map_modify (f := Fiber.entered) (fun _ => rfl) m.fibers id)

theorem leave_on {f' : Fiber → Fiber} (hf : ∀ y : Fiber, f' (y.mapKonts e.konts) = (f y).mapKonts e.konts) (m : Machine)
    (id : Nat) (x : Context) (rest : List Context) :
    (e.on m).leave id f' (x.mapKonts e.konts) (rest.map (Context.mapKonts e.konts)) = e.on (m.leave id f x rest) :=
  congrArg (fun fibers => { e.on (m.leave id f x rest) with fibers }) (map_modify hf m.fibers id)

theorem pushKont_on (hm : e.Holds m) (k : Kont) : Exec.pushKont k (e.on m) = mapState e.on (Exec.pushKont k m) := by
  have pushed : ({ m.context with konts := k :: m.context.konts } : Context).mapKonts e.konts =
      { m.context.mapKonts e.konts with konts := k :: e.konts m.context.fiber m.context.konts } :=
    congrArg (fun ks => { m.context with konts := ks }) (hm.running.cons k)
  exact congrArg (fun x => EStateM.Result.ok () { e.on m with context := x }) pushed.symm

theorem pushKont (k : Kont) : Framed e K (Exec.pushKont k) (Same K fun _ => True) :=
  of_keeping (changed fun _ _ hm => ⟨hm.of_eq (hm.running.mono rfl rfl ⟨[_], rfl⟩) rfl rfl, trivial⟩)
    fun _ hm => pushKont_on hm k

theorem resumeFiber (packed : Framed e K (pack vs) Known.value)
    (begun : ∀ f, K.fiber f → Framed e K (beginFiber f vs) Known.control) :
    Framed e K (Exec.resumeFiber id vs) Known.control := by
  intro hK m hm
  have started (f : Fiber) : Framed e K (startFiber f vs) Known.control := by
    rw [startFiber_eq]
    exact bind (pushKont _) fun K' _ _ h => h.1 ▸ begun f (hK.fiber f)
  have here : (e.on m).fibers[id]? = m.fibers[id]?.map (Fiber.mapKonts e.konts) := Array.getElem?_map
  have stays {c : Control} (h : Exec.resumeFiber id vs m = .ok c m) (h' : Exec.resumeFiber id vs (e.on m) = .ok c (e.on m)) :
      Exec.resumeFiber id vs (e.on m) = mapState e.on (Exec.resumeFiber id vs m) ∧ ∀ c m',
        Exec.resumeFiber id vs m = .ok c m' → e.Holds m' ∧ ∃ K', K ≤ K' ∧ K'.All ∧ K'.control c := by
    refine ⟨by rw [h, h', mapState], fun c m' he => ?_⟩
    cases h.symm.trans he
    exact ⟨hm, K, le_rfl, hK, hK.control _⟩
  cases hf : m.fibers[id]? with
  | none =>
    rw [hf] at here
    rw [Machine.resumeFiber_absent hf, Machine.resumeFiber_absent here]
    exact ⟨rfl, fun _ _ h => nomatch h⟩
  | some f =>
    rw [hf] at here
    have there : m.fibers.getD id default = f := by rw [Array.getD_eq_getD_getElem?, hf, Option.getD_some]
    by_cases hd : f.state = .dead
    · exact stays (Machine.resumeFiber_dead hf hd) (Machine.resumeFiber_dead here hd)
    by_cases ha : f.active = true
    · exact stays (Machine.resumeFiber_active hf hd ha) (Machine.resumeFiber_active here hd ha)
    have ha := Bool.eq_false_of_not_eq_true ha
    cases hc : f.context with
    | none =>
      have fresh : e.Under { stack := m.pool.take.1, fiber := some id } := by
        intro ht
        obtain ⟨-, hs⟩ := hm.started id ht.symm
        rw [there, ha, hc] at hs
        rcases hs with hs | hs | hs
        · exact absurd hs hd
        · cases hs
        · exact absurd rfl hs
      have taken : e.Holds { m with pool := m.pool.take.2 } := hm.of_eq hm.running rfl rfl
      have hm' := taken.enter id fresh
      have hc' : (f.mapKonts e.konts).context = none := congrArg (Option.map _) hc
      have entered : ({ e.on m with pool := (e.on m).pool.take.2 } : Machine).enter id
          { stack := (e.on m).pool.take.1, fiber := some id } =
          e.on ({ m with pool := m.pool.take.2 }.enter id { stack := m.pool.take.1, fiber := some id }) := by
        have idle : ({ stack := m.pool.take.1, fiber := some id } : Context).mapKonts e.konts =
            { stack := m.pool.take.1, fiber := some id } := by rw [Context.mapKonts, konts_nil]
        exact (congrArg (Machine.enter _ id) idle.symm).trans (enter_on { m with pool := m.pool.take.2 } id _)
      rw [Machine.resumeFiber_new hf hd ha hc, Machine.resumeFiber_new here hd ha hc', entered]
      exact started f hK _ hm'
    | some c =>
      have under : e.Under c := (hm.stored id c (there.symm ▸ hc)).resolve_right fun h => hd (there ▸ h.1)
      have hc' : (f.mapKonts e.konts).context = some (c.mapKonts e.konts) := congrArg (Option.map _) hc
      rw [Machine.resumeFiber_stored hf hd ha hc, Machine.resumeFiber_stored here hd ha hc', enter_on]
      have framed : Framed e K (pack vs >>= fun v => Pure.pure (Control.value v)) Known.control :=
        bind packed fun _ _ _ hv => pure hv
      exact framed hK _ (hm.enter id under)

section

variable {c : Control} {d : Defect} {m' m₁ : Machine} {x : Exec Control} {fibers fibers₁ : Array Fiber}

/-- The same comes next, and the machines that come of it are alike. -/
theorem of_ok (hK : K.All) (h : x m = .ok c m') (h₁ : x (e.on m) = .ok c m₁) (he : m₁ = e.on m') (hm' : e.Holds m') :
    x (e.on m) = mapState e.on (x m) ∧ ∀ c m', x m = .ok c m' → e.Holds m' ∧ ∃ K', K ≤ K' ∧ K'.All ∧ Same K K.control K' c := by
  refine ⟨by rw [h, h₁, he, mapState], fun c m' hx => ?_⟩
  cases h.symm.trans hx
  exact ⟨hm', K, le_rfl, hK, rfl, hK.control _⟩

theorem of_error (h : x m = .error d { m with fibers }) (h₁ : x (e.on m) = .error d { e.on m with fibers := fibers₁ })
    (he : fibers₁ = fibers.map (Fiber.mapKonts e.konts)) :
    x (e.on m) = mapState e.on (x m) ∧ ∀ c m', x m = .ok c m' → e.Holds m' ∧ ∃ K', K ≤ K' ∧ K'.All ∧ Same K K.control K' c :=
  ⟨by rw [h, h₁, he]; rfl, fun _ _ hx => nomatch h.symm.trans hx⟩

end

theorem suspend (v : Value) : Framed e K (Exec.suspend v) (Same K K.control) := by
  intro hK m hm
  let stop (x : Context) (f : Fiber) : Fiber := { f with active := false, context := some x, lastYield := some v }
  have stopped (f : Fiber) : stop (e.on m).context (f.mapKonts e.konts) = (stop m.context f).mapKonts e.konts := rfl
  cases hf : m.context.fiber with
  | none => exact of_ok hK (Machine.suspend_root hf) (Machine.suspend_root (m := e.on m) hf) rfl hm
  | some id =>
    cases hw : m.waiting with
    | nil =>
      exact of_error (Machine.suspend_alone hf hw) (Machine.suspend_alone (m := e.on m) hf (congrArg (List.map _) hw))
        (map_modify stopped m.fibers id)
    | cons x rest =>
      refine of_ok hK (Machine.suspend_apply hf hw) (Machine.suspend_apply (m := e.on m) hf (congrArg (List.map _) hw))
        (leave_on stopped m id x rest) (hm.leave hw (fun y hy => ?_) (.inr (Option.some_ne_none _)))
      cases hy
      exact .inl hm.running

/-- The thread of a fiber that is over is left. -/
theorem holds_over (hm : e.Holds m) (hw : m.waiting = x :: rest) :
    e.Holds { m.leave id (fun f => { f with active := false, state := .dead }) x rest with
      pool := m.pool.put m.context.stack } := by
  have left : e.Holds (m.leave id (fun f => { f with active := false, state := .dead }) x rest) :=
    hm.leave hw (fun y hy => (hm.stored id y hy).imp_right fun hd => ⟨rfl, hd.2⟩) (.inl rfl)
  exact left.of_eq left.running rfl rfl

theorem over_on (m : Machine) (id : Nat) (x : Context) (rest : List Context) :
    { (e.on m).leave id (fun f => { f with active := false, state := .dead }) (x.mapKonts e.konts)
        (rest.map (Context.mapKonts e.konts)) with pool := (e.on m).pool.put (e.on m).context.stack } =
      e.on { m.leave id (fun f => { f with active := false, state := .dead }) x rest with
        pool := m.pool.put m.context.stack } :=
  congrArg (fun m' : Machine => { m' with pool := m.pool.put m.context.stack })
    (leave_on (f := fun f => { f with active := false, state := .dead }) (fun _ => rfl) m id x rest)

theorem finishFiber (r : Except Failure Value) : Framed e K (Exec.finishFiber r) (Same K K.control) := by
  intro hK m hm
  cases hf : m.context.fiber with
  | none =>
    refine ⟨?_, fun c m' hx => nomatch (Machine.finishFiber_root hf).symm.trans hx⟩
    rw [Machine.finishFiber_root hf, Machine.finishFiber_root (m := e.on m) hf, mapState]
  | some id =>
    cases hw : m.waiting with
    | nil =>
      exact of_error (Machine.finishFiber_alone hf hw) (Machine.finishFiber_alone (m := e.on m) hf (congrArg (List.map _) hw))
        (map_modify (f := fun f => { f with active := false }) (fun _ => rfl) m.fibers id)
    | cons x rest =>
      exact of_ok hK (Machine.finishFiber_apply hf hw) (Machine.finishFiber_apply (m := e.on m) hf (congrArg (List.map _) hw))
        (over_on m id x rest) (holds_over hm hw)

theorem abandonRunning (id : Nat) : Framed e K (Exec.abandonRunning id) (Same K K.control) := by
  intro hK m hm
  by_cases hf : m.context.fiber = some id
  case neg =>
    refine ⟨?_, fun c m' hx => nomatch (Machine.abandonRunning_away hf).symm.trans hx⟩
    rw [Machine.abandonRunning_away hf, Machine.abandonRunning_away (m := e.on m) hf, mapState]
  cases hw : m.waiting with
  | nil =>
    exact of_error (Machine.abandonRunning_alone hf hw)
      (Machine.abandonRunning_alone (m := e.on m) hf (congrArg (List.map _) hw))
      (map_modify (f := fun f => { f with active := false }) (fun _ => rfl) m.fibers id)
  | cons x rest =>
    have last : ((e.on m).fibers.getD id default).lastYield = (m.fibers.getD id default).lastYield :=
      (congrArg Fiber.lastYield (Fiber.getD_mapContext m.fibers _ id)).trans rfl
    cases hv : (m.fibers.getD id default).lastYield with
    | none =>
      exact of_ok hK (Machine.abandonRunning_fresh hf hw hv)
        (Machine.abandonRunning_fresh (m := e.on m) hf (congrArg (List.map _) hw) (last.trans hv))
        (over_on m id x rest) (holds_over hm hw)
    | some v =>
      let drop (x : Context) (f : Fiber) : Fiber :=
        { f with active := false, state := .dead, context := some { x with konts := [] } }
      have dropped (f : Fiber) : drop (e.on m).context (f.mapKonts e.konts) = (drop m.context f).mapKonts e.konts := by
        refine congrArg (fun ks => { drop m.context f with context := some { m.context with konts := ks } }) ?_
        exact konts_nil.symm
      refine of_ok hK (Machine.abandonRunning_yielded hf hw hv)
        (Machine.abandonRunning_yielded (m := e.on m) hf (congrArg (List.map _) hw) (last.trans hv))
        (leave_on dropped m id x rest) (hm.leave hw (fun y hy => ?_) (.inl rfl))
      cases hy
      exact .inr ⟨rfl, rfl⟩

theorem callLogic (e : Exchange) : CallLogic (Framed e) :=
  { logic e with
    change := fun blind hf => of_keeping (changed fun _ hk hm => ⟨hm.still (hf _ hk).2.1, trivial⟩) fun m _ =>
      congrArg (EStateM.Result.ok ()) (blind e.konts m)
    pushKont := fun _ _ => pushKont _
    resume := fun _ => resumeFiber
    suspend := fun _ => suspend _ }

theorem collect (e : Exchange) : Framed e K Exec.collect (Same K fun _ => True) := fun hK => by
  have heap {α : Type} (x : HeapM Object α) : Framed e K (onHeap x) (Same K fun _ => True) :=
    of_detached (of_kept (kept_onHeap e x) fun _ _ _ _ _ => ⟨rfl, trivial⟩) (.onHeap x)
  exact (logic e).collectBy hK.fib (heap _) (fun _ _ => heap _) (heap _) (heap _)
    (fun _ => of_keeping (changed fun _ _ hm => ⟨hm.still (.of_eq rfl rfl rfl rfl), trivial⟩) fun _ _ => rfl) hK

theorem collectLogic (e : Exchange) : CollectLogic (Framed e) (Framed e) :=
  { callLogic e with
    plain := fun h => h
    andThen := bind
    giving := fun hx h => bind hx fun K' a hle ha => pure (h K' a hle ha)
    lookThen := look
    collect := collect e }

end Framed

/-! ## Steps and calls by the host -/

variable {c : Control}

/-- A computation of which nothing needs to be known. -/
theorem Framed.apply {y : Exec α} {R : Known → α → Prop} {n : Nat} (hy : Framed e (.anything n) y R) (hm : e.Holds m) :
    y (e.on m) = mapState e.on (y m) ∧ ∀ a m', y m = .ok a m' → e.Holds m' := by
  obtain ⟨he, hr⟩ := hy (Known.all_anything n) m hm
  exact ⟨he, fun a m' h => (hr a m' h).1⟩

/-- What is exchanged stands where it stood when something above it is gone on with. -/
theorem Holds.pop {k : Kont} {rest : List Kont} (hm : e.Holds m) (hk : m.context.konts = k :: rest)
    (ho : m.context.fiber = e.thread → m.context.konts ≠ e.old) : e.Holds { m with context.konts := rest } := by
  refine hm.of_eq (fun ht => ?_) rfl rfl
  obtain ⟨hc, ks, hks⟩ := hm.running ht
  refine ⟨hc, ?_⟩
  cases ks with
  | nil => exact absurd hks (ho ht)
  | cons k' ks => exact ⟨ks, (List.cons.inj (hk.symm.trans hks)).2⟩

/-- A step comes to the same, unless it goes on with what is exchanged. -/
theorem step_on (hm : e.Holds m) (ho : ∀ r, c = .deliver r → m.context.fiber = e.thread → m.context.konts ≠ e.old) :
    step c (e.on m) = mapState e.on (step c m) ∧ ∀ o m', step c m = .ok o m' → e.Holds m' := by
  by_cases hd : ∀ r, c ≠ .deliver r
  · exact ((Framed.collectLogic e).stepAside (fun _ => Framed.abandonRunning _) hd ((Known.all_anything _).control c) (Known.ready_anything c)).apply hm
  obtain ⟨r, hr⟩ := not_forall_not.mp hd
  subst hr
  cases hk : m.context.konts with
  | nil =>
    have hk' : (e.on m).context.konts = [] := (congrArg (e.konts _) hk).trans konts_nil
    rw [deliver_nil hk, deliver_nil hk']
    refine ⟨rfl, fun o m' h => ?_⟩
    cases h
    exact hm
  | cons k rest =>
    have popped := hm.pop hk (ho r rfl)
    have hk' : (e.on m).context.konts = k :: e.konts m.context.fiber rest :=
      (congrArg (e.konts _) hk).trans (popped.running.cons k)
    have known : (Known.anything 0).kont k ∧ (Known.anything 0).result r :=
      ⟨(Known.all_anything 0).kont k, (Known.all_anything 0).control (.deliver r)⟩
    have finish : Finishes (Framed e) := fun _ => Framed.finishFiber _
    have framed : Framed e (.anything 0) (resumeKont k r >>= fun c => pure (.inl c) : Exec (Control ⊕ Outcome)) fun _ _ => True :=
      Framed.bind ((Framed.callLogic e).resumeKont (fun _ => finish) known.1 known.2) fun _ _ _ _ => Framed.pure trivial
    rw [deliver_cons hk, deliver_cons hk']
    exact framed.apply popped

theorem start_on (entry : Entry) (hm : e.Holds m) :
    entry.start (e.on m) = mapState e.on (entry.start m) ∧ ∀ c m', entry.start m = .ok c m' → e.Holds m' :=
  (entry.start_known (Framed.callLogic e)).apply hm

theorem kept_on {f f' : Fiber} (h : f.Kept f') : (f.mapKonts e.konts).Kept (f'.mapKonts e.konts) where
  active := h.active
  context := h.context.imp (congrArg (Option.map _)) fun hc => ⟨(congrArg (Option.map _) hc.1).trans rfl, hc.2⟩
  dead := h.dead

theorem tended_on {m' : Machine} (h : m.Tended m') : (e.on m).Tended (e.on m') where
  steady := by
    refine ⟨⟨(e.on m).context.stack, congrArg (Context.mapKonts e.konts) h.context⟩, congrArg (List.map _) h.steady.waiting,
      ?_, fun i => ?_, fun id hid => (h.steady.objects id hid).imp_right ?_⟩
    · simpa [Machine.mapKonts, Machine.mapThreads] using h.steady.size
    · have kept := kept_on (e := e) (h.steady.fibers i)
      rwa [Fiber.mapKonts, Fiber.mapKonts, ← Fiber.getD_mapContext, ← Fiber.getD_mapContext] at kept
    · simp [Machine.mapKonts, Machine.mapThreads]
  context := congrArg (Context.mapKonts e.konts) h.context
  sound hs := by
    have sound : m'.Sound := h.sound ⟨hs.heap, hs.idents, hs.functions⟩
    exact ⟨sound.heap, sound.idents, sound.functions⟩

end Exchange

end RubyMachine
