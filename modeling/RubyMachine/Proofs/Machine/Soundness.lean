import RubyMachine.Program.Load
import RubyMachine.Proofs.Function.Table
import RubyMachine.Proofs.Heap.Use
import RubyMachine.Proofs.Machine.Keeping

/-! Machines are sound: the parts of the heap agree, no name has two numbers, and all code that was added has
caches that there can be. Everything that code and its host do keeps a machine sound. -/

namespace RubyMachine

/-! ## Sound machines -/

structure Machine.Sound (m : Machine) : Prop where
  heap : m.heap.Inv
  idents : m.idents.Proper
  functions : ∀ fn seq, m.functions.sequence fn = .ok seq → Function.canHoldSites seq = true

namespace Machine.Sound

open Keeping

variable {m : Machine} {α : Type} {K : Known}

theorem modifyFunction (hm : m.Sound) (fn : FnId) {g : Function → Function} (hg : ∀ f, (g f).body = f.body) :
    { m with functions := m.functions.modify fn g }.Sound := by
  refine { hm with functions := fun fn' seq h => ?_ }
  obtain ⟨f', hf', hb⟩ := FunctionTable.sequence_eq_ok.1 h
  rw [FunctionTable.find?_modify] at hf'
  split at hf'
  · obtain ⟨f, hf, rfl⟩ := Option.map_eq_some_iff.1 hf'
    exact hm.functions fn' seq (FunctionTable.sequence_eq_ok.2 ⟨f, hf, hg f ▸ hb⟩)
  · exact hm.functions fn' seq (FunctionTable.sequence_eq_ok.2 ⟨f', hf', hb⟩)

theorem addFunction (hm : m.Sound) {f : Function} (hf : ∀ seq, f.body = .code seq → Function.canHoldSites seq = true) :
    { m with functions := (m.functions.add f).2 }.Sound := by
  refine { hm with functions := fun fn seq h => ?_ }
  obtain ⟨f', hf', hb⟩ := FunctionTable.sequence_eq_ok.1 h
  rcases FunctionTable.find?_add hf' with h | rfl
  · exact hm.functions fn seq (FunctionTable.sequence_eq_ok.2 ⟨f', h, hb⟩)
  · exact hf seq hb

theorem minor {m' : Machine} (hm : m.Sound) (h : m.Minor m') : m'.Sound :=
  ⟨h.heap ▸ hm.heap, h.idents hm.idents, h.functions ▸ hm.functions⟩

theorem kept_onHeap {x : HeapM Object α} (hx : ∀ h : Heap Object, h.Inv → (after x h).Inv) :
    Kept Sound (Exec.onHeap x) := by
  intro m hm
  have h := hx m.heap hm.heap
  unfold after Exec.onHeap at *
  dsimp only
  cases hr : x m.heap with
  | ok a t => rw [hr] at h; exact { hm with heap := h }
  | error d t => rw [hr] at h; exact { hm with heap := h }

/-! ### What primitives do -/

theorem kept_alloc (o : Object) : Kept Sound (Exec.alloc o) := kept_onHeap fun h hi => by
  rcases Heap.alloc_spec hi o with ⟨p, c, h', hrun, hp⟩ | ⟨-, hrun⟩
  · rw [after_of_ok hrun]
    exact hp.inv
  · rw [after_of_error hrun]
    exact Heap.inv_countAllocation hi

theorem kept_update (v : Value) (f : Object → Object) : Kept Sound (Exec.update v f) :=
  kept_onHeap fun _ hi => hi.update _ _

/-! ### The logic -/

theorem changes : Changes (Keeping Sound) where
  toBasics := basics Sound
  whole := whole
  disorder := of_kept (kept_throw _) fun _ _ _ _ h => nomatch h
  change hf := changed fun m hk hm => ⟨hm.minor (hf m hk).1, (hf m hk).2.2⟩

theorem stable : Stable Sound where
  alloc _ := kept_alloc _
  update _ _ _ := kept_update _ _
  setEnabled _ := kept_onHeap fun _ hi => hi.congr rfl rfl rfl rfl rfl rfl rfl
  classes hm := { hm with }
  lookups hm := { hm with }
  functions hm hg := hm.modifyFunction _ hg
  addFunction hm hb := hm.addFunction fun seq h => absurd h (hb seq)
  newFiber _ _ := kept_get.bind fun _ => (kept_alloc _).bind fun _ => Kept.bind (fun _ hm => { hm with }) fun _ => kept_pure _
  releaseFiber := changes.releaseFiber
  steady hm h _ _ := hm.minor h

theorem logic : CallLogic (Keeping Sound) := changes.callLogic stable.logic

theorem collect : Keeping Sound K Exec.collect (Same K fun _ => True) := fun hK => by
  have heap {α : Type} {x : HeapM Object α} (hx : ∀ h : Heap Object, h.Inv → (after x h).Inv) :
      Keeping Sound K (Exec.onHeap x) (Same K fun _ => True) := of_kept (kept_onHeap hx) fun _ _ _ _ _ => ⟨rfl, trivial⟩
  refine logic.collectBy hK.fib (heap fun _ hi => hi.clearMarks) (fun refs vs => heap fun h hi => ?_) (heap fun h hi => ?_)
    (heap fun _ hi => hi.congr rfl rfl rfl rfl rfl rfl rfl) (fun c => of_kept (fun _ hm => ?_) fun _ _ _ _ _ => ⟨rfl, trivial⟩) hK
  · exact Heap.after_markValues (fun _ _ _ hi => hi.setMark) refs vs hi
  · obtain ⟨freed, h', hrun, hs, -⟩ := Heap.sweep_spec hi.toCore
    rw [after_of_ok hrun]
    exact hs.inv
  · exact { hm with }

theorem collectLogic : CollectLogic (Keeping Sound) (Keeping Sound) :=
  { logic with
    plain := fun h => h
    andThen := bind
    giving := fun hx h => bind hx fun K' a hle ha => pure (h K' a hle ha)
    lookThen := logic.look
    collect := collect }

end Machine.Sound

/-! ## Everything that is done to machines -/

/-! ### Code and programs -/

namespace Machine.Sound

open Keeping

theorem kept_addSequence (seq : Code.Sequence) : Kept Sound (Exec.addSequence seq) := by
  unfold Exec.addSequence
  by_cases hs : Function.canHoldSites seq = true
  · rw [hs]
    refine fun m hm => hm.addFunction fun q hq => ?_
    cases hq
    exact hs
  · rw [Bool.eq_false_of_not_eq_true hs]
    exact fun _ hm => hm

section Loading

open Program Program.Loading

/-- Loading a part keeps a machine sound. -/
abbrev KeptBy {β : Type} (x : Loading β) : Prop := Kept Sound x.run

theorem kept_thenLoading {β : Type} {x : Loading α} {f : α → Loading β} (hx : KeptBy x) (hf : ∀ a, KeptBy (f a)) :
    KeptBy (x >>= f) :=
  hx.bind fun r => by
    cases r with
    | ok a => exact hf a
    | error e => exact kept_pure _

theorem kept_liftLoading {x : Exec α} (hx : Kept Sound x) : KeptBy (liftM x : Loading α) := hx.bind fun _ => kept_pure _

mutual

theorem kept_literal (names : Array Ident) : ∀ l : Literal, KeptBy (Loading.literal names l)
  | ⟨kind, int, float, text, ident, elems⟩ => by
    rw [Loading.literal]
    split_ifs
    · exact kept_pure _
    · exact kept_pure _
    · exact kept_pure _
    · split <;> exact kept_pure _
    · exact kept_pure _
    · exact kept_thenLoading (kept_pure _) fun _ => kept_pure _
    · exact kept_liftLoading (kept_alloc _)
    · exact kept_thenLoading (kept_literals names elems) fun vs => kept_liftLoading (kept_alloc _)
    · exact kept_pure _

theorem kept_literals (names : Array Ident) : ∀ ls : List Literal, KeptBy (Loading.literals names ls)
  | [] => by
    rw [Loading.literals]
    exact kept_pure _
  | l :: ls => by
    rw [Loading.literals]
    exact kept_thenLoading (kept_literal names l) fun v => kept_thenLoading (kept_literals names ls) fun vs => kept_pure _

end

theorem kept_sequence (names : Array Ident) (count : Nat) (s : Program.Sequence) : KeptBy (Loading.sequence names count s) :=
  kept_thenLoading (kept_pure _) fun _ => kept_thenLoading (kept_literals names s.consts) fun _ =>
    kept_thenLoading (kept_pure _) fun _ => kept_pure _

theorem kept_sequences (names : Array Ident) (count i : Nat) (ss : List Program.Sequence) :
    Kept Sound (Loading.sequences names count i ss) := by
  induction ss generalizing i with
  | nil => exact kept_pure _
  | cons s ss ih =>
    refine (kept_sequence names count s).bind fun r => ?_
    cases r with
    | error e => exact kept_pure _
    | ok q => exact (ih (i + 1)).bind fun _ => kept_pure _

theorem kept_mapM {β : Type} {f : β → Exec α} (hf : ∀ b, Kept Sound (f b)) (l : List β) : Kept Sound (l.mapM f) := by
  induction l with
  | nil => exact kept_pure _
  | cons b l ih =>
    rw [List.mapM_cons]
    exact (hf b).bind fun _ => ih.bind fun _ => kept_pure _

theorem kept_intern (name : String) : Kept Sound (Exec.intern name) :=
  fun _ hm => ⟨hm.heap, hm.idents.intern name, hm.functions⟩

/-- Code that is exchanged has the caches that it had. -/
theorem kept_withCode (i : Nat) (code : Bytes) :
    Kept Sound (modify fun m => { m with functions := ⟨m.functions.functions.modify i (·.withCode code)⟩ }) := by
  refine fun m hm => { hm with functions := fun fn seq h => ?_ }
  obtain ⟨seq', h', sites, consts⟩ := FunctionTable.sequence_withCode h
  have holds := hm.functions fn seq' h'
  rw [Function.canHoldSites] at holds ⊢
  rwa [← sites, ← consts]

theorem kept_link (fns : Array FnId) (i : Nat) (qs : List Code.Sequence) : Kept Sound (link fns i qs) := by
  induction qs generalizing i with
  | nil => exact kept_pure _
  | cons q qs ih =>
    rw [link]
    refine Kept.bind (kept_ofExcept _) fun r => ?_
    refine (kept_withCode i r.1).bind fun _ => ?_
    cases r.2 with
    | none => exact ih (i + 1)
    | some e => exact kept_pure _

theorem kept_loadAll (p : Program) : Kept Sound p.loadAll := by
  unfold loadAll
  dsimp only
  split
  · exact kept_pure _
  refine (kept_mapM kept_intern _).bind fun names => ?_
  refine (kept_sequences _ _ _ _).bind fun r => ?_
  cases r with
  | error e => exact kept_pure _
  | ok qs => exact kept_get.bind fun m => (kept_mapM kept_addSequence qs).bind fun _ => (kept_link _ _ qs).bind fun _ => kept_pure _

end Loading

end Machine.Sound

namespace Machine

/-- The machines that code and its host bring about, in any order, failures included. -/
inductive Arises : Machine → Prop where
  | blank (options : Options) : Arises (blank options)
  | boot {m : Machine} : Arises m → Arises (after Exec.boot m)
  | startTop {m : Machine} (fn : FnId) : Arises m → Arises (after (Exec.startTop fn) m)
  | step {m : Machine} (c : Control) : Arises m → Arises (after (Exec.step c) m)
  | collect {m : Machine} : Arises m → Arises (after Exec.collect m)
  | intern {m : Machine} (name : String) : Arises m → Arises (after (Exec.intern name) m)
  | alloc {m : Machine} (o : Object) : Arises m → Arises (after (Exec.alloc o) m)
  | update {m : Machine} (v : Value) (f : Object → Object) : Arises m → Arises (after (Exec.update v f) m)
  | defineModule {m : Machine} (parent : Nat) (name : Ident) (super : Option Nat) (isModule : Bool) :
    Arises m → Arises (after (Exec.defineModule parent name super isModule) m)
  | singletonClass {m : Machine} (cls : Nat) : Arises m → Arises (after (Exec.singletonClass cls) m)
  | mixIn {m : Machine} (cls mod : Nat) : Arises m → Arises (after (Exec.mixIn cls mod) m)
  | setConst {m : Machine} (cls : Nat) (name : Ident) (v : Value) : Arises m → Arises (after (Exec.setConst cls name v) m)
  | defineMethod {m : Machine} (cls : Nat) (name : Ident) (fn : FnId) :
    Arises m → Arises (after (Exec.defineMethod cls name fn) m)
  | addSequence {m : Machine} (seq : Code.Sequence) : Arises m → Arises (after (Exec.addSequence seq) m)
  | defineBuiltin {m : Machine} (e : Builtin.Entry) : Arises m → Arises (after (Exec.defineBuiltin e) m)
  | defineAttr {m : Machine} (cls : Nat) (name : String) (reader writer : Bool) :
    Arises m → Arises (after (Exec.defineAttr cls name reader writer) m)
  | loadAll {m : Machine} (p : Program) : Arises m → Arises (after p.loadAll m)
  | minor {m m' : Machine} : Arises m → m.Minor m' → Arises m'

theorem sound_blank (options : Options) : (Machine.blank options).Sound where
  heap := (Heap.inv_new options.sanitize.threshold options.sanitize.debug).congr rfl rfl rfl rfl rfl rfl rfl
  idents := IdentTable.proper_empty
  functions fn seq h := by
    obtain ⟨f, hf, -⟩ := FunctionTable.sequence_eq_ok.1 h
    simp [Machine.blank, FunctionTable.find?] at hf

theorem Sound.run {m : Machine} (hm : m.Sound) {α : Type} {x : Exec α} {R : Known → α → Prop} {k : Nat}
    (hx : Keeping Sound (.anything k) x R) : (after x m).Sound := by
  obtain ⟨-, -, -, h, -⟩ := hx (Known.all_anything k) m hm
  exact h

theorem Sound.boot {m : Machine} (hm : m.Sound) : (after Exec.boot m).Sound := hm.run (Sound.logic.boot Nat.one_pos)

theorem Sound.step {m : Machine} (hm : m.Sound) (c : Control) : (after (Exec.step c) m).Sound :=
  hm.run (Sound.collectLogic.stepBy Sound.changes.finishFiber Sound.changes.abandonRunning Sound.changes.whole (fun _ hk => Sound.changes.setKonts (fun _ => _) fun _ _ => hk)
    ((Known.all_anything c.changes).control c) (Known.ready_anything c))

theorem Arises.sound {m : Machine} (h : m.Arises) : m.Sound := by
  have L := Sound.logic
  induction h with
  | blank options => exact sound_blank options
  | boot _ ih => exact ih.boot
  | startTop fn _ ih => exact ih.run (k := 0) (L.startTopBy fn (Sound.changes.setKonts (fun _ => []) fun _ _ => by simp))
  | step c _ ih => exact ih.step c
  | collect _ ih => exact ih.run (k := 0) Sound.collect
  | intern name _ ih => exact Sound.kept_intern name _ ih
  | alloc o _ ih => exact Sound.kept_alloc o _ ih
  | update v f _ ih => exact Sound.kept_update v f _ ih
  | defineModule parent name super isModule _ ih =>
    exact ih.run (k := 0) (L.defineModule trivial (maybe_all (fun _ => trivial) _) name isModule)
  | singletonClass cls _ ih => exact ih.run (k := 0) (L.singletonClass cls trivial)
  | mixIn cls mod _ ih => exact Sound.stable.kept_mixIn cls mod _ ih
  | setConst cls name v _ ih => exact Sound.stable.kept_setConst cls name v _ ih
  | defineMethod cls name fn _ ih => exact Sound.stable.kept_defineMethod cls name fn _ ih
  | addSequence seq _ ih => exact Sound.kept_addSequence seq _ ih
  | defineBuiltin e _ ih => exact ih.run (k := 0) (L.defineBuiltin e trivial)
  | defineAttr cls name reader writer _ ih => exact ih.run (k := 0) (L.defineAttr trivial name reader writer)
  | loadAll p _ ih => exact Sound.kept_loadAll p _ ih
  | minor _ hq ih => exact ih.minor hq

end Machine

end RubyMachine
