import RubyMachine.Machine.Boot
import RubyMachine.Proofs.Machine.Instructions

/-! Steps of the machine in every logic. In each step a collection comes last, if there is one. -/

namespace RubyMachine

/-- How many definitions a step replaces at most: a builtin may mix in as many modules as it has arguments. -/
def Control.changes : Control → Nat
  | .call _ _ _ argc _ _ => argc.toNat + 1
  | _ => 1

/-- What a machine does next keeps to what is known: the instruction to be run may do what it does. -/
def Known.ready (K : Known) : Control → Prop
  | .exec a pc => ∀ op, Code.Opcode.ofByte? (a.seq.code.getD pc.toNat 0) = some op → K.admits ⟨a, pc.toNat, op⟩
  | .call _ _ _ argc _ _ => argc.toNat + 1 ≤ K.changes
  | _ => True

/-- What came of a run is known. -/
def Known.end (K : Known) : Control ⊕ Exec.Outcome → Prop
  | .inl c | .inr (.cut c) => K.control c
  | .inr (.done r) => K.result r
  | .inr (.host h) => K.hostCall h

namespace Logic

open Known

variable {K : Known} {Φ : ∀ {α : Type}, Known → Exec α → (Known → α → Prop) → Prop} (L : Logic Φ)

include L

/-! ## The first machine -/

theorem defineTop (name : String) (super : Option Nat) (hs : Maybe K.cls super) (isModule : Bool) :
    Φ K (discard (Exec.defineTop name super isModule)) fun K' _ => K'.changes = K.changes := by
  have defined : Φ K (Exec.defineTop name super isModule) fun K' c => K'.cls c ∧ K'.changes = K.changes := by
    refine L.seq (L.intern name) fun i _ => ?_
    exact L.defineModule (mem_fixed (by decide)) hs i isModule
  exact L.bind (f := fun _ => Pure.pure ()) defined fun _ _ _ h => L.pure h.2

theorem thenEnroll {β : Type} {name : Ident} {R : Known → β → Prop} {rest : Exec β}
    (hr : ∀ K', K'.changes = K.changes → Φ K' rest R) : Φ K (do
      let c ← Exec.allocModule name none false
      Exec.setConst c name (← Exec.module c).self
      rest) R := by
  have enrolled : Φ K (Exec.enroll id name none false) fun K' c => K'.cls c ∧ K'.changes = K.changes :=
    L.enroll (fun _ => .inl rfl) fun _ h => nomatch h
  have h := L.bind (f := fun _ => rest) enrolled fun K' _ _ h => hr K' h.2
  simpa only [Exec.enroll, bind_assoc, pure_bind, id] using h

theorem defineCore (hk : 0 < K.changes) : Φ K Exec.defineCore fun _ _ => True := by
  refine L.thenEnroll fun K1 h1 => ?_
  refine L.bind (L.defineTop "Module" (some _) (mem_fixed (by decide)) false) fun K2 _ _ h2 => ?_
  refine L.bind (L.defineTop "Class" (some _) (mem_fixed (by decide)) false) fun K3 _ _ h3 => ?_
  refine L.bind (L.defineTop "Kernel" none trivial true) fun K4 _ _ h4 => ?_
  refine L.bind (L.mixIn (by omega) (mem_fixed (by decide)) (mem_fixed (by decide))) fun K5 _ _ _ => ?_
  refine L.bind (L.growM fun K' _ name _ => L.mono (L.defineTop name none trivial false)
    fun _ _ _ _ => trivial) fun K6 _ _ _ => ?_
  exact L.mono (L.defineTop "GC" none trivial true) fun _ _ _ _ => trivial

theorem boot (hk : 0 < K.changes) : Φ K Exec.boot fun _ _ => True := by
  refine L.bind (L.defineCore hk) fun K1 _ _ _ => ?_
  refine L.bind (L.newObject (mem_fixed (by decide))) fun K2 main _ hm => ?_
  have named : Keeps Φ K2 (modify fun m => { m with mainObject := main }) := L.adjust (fun _ _ => rfl) fun m h =>
    ⟨⟨rfl, rfl, rfl, rfl, rfl, rfl, rfl, rfl, fun _ => rfl, fun h => h⟩, .of_stack _ rfl rfl rfl rfl,
      .of_eq rfl rfl rfl rfl, { h with main := hm }, trivial⟩
  refine L.seq named fun _ _ => ?_
  have owners : ∀ e ∈ Builtin.entries, e.owner ≤ ClassTable.collector := by decide +kernel
  exact L.growM fun K' _ e he => L.defineBuiltin e (mem_fixed (owners e he))

end Logic

namespace CallLogic

open Known Logic

variable {K : Known} {v : Value} {a : Activation} {r : Except Failure Value}
  {Φ : ∀ {α : Type}, Known → Exec α → (Known → α → Prop) → Prop} (L : CallLogic Φ)

include L

/-! ## Activations -/

theorem leave (a : Activation) (hr : K.result r) : Φ K (Exec.leave a r) (Same K K.control) := by
  have left (r : Except Failure Value) (hr : K.result r) : Φ K (do
      Exec.setFrame a.caller
      Exec.resize a.height
      return .deliver r) (Same K K.control) := by
    refine L.seq (L.setFrame _) fun _ _ => ?_
    exact L.seq (L.resize _) fun _ _ => L.ret hr
  unfold Exec.leave
  dsimp only
  split
  · split
    · refine L.seq (L.sameFrame _ _) fun same _ => ?_
      split
      · exact left _ hr
      · exact left _ hr
    · exact left _ hr
  · exact left _ hr

theorem raise {f : Failure} (ha : K.activation a) (pc : Int) (hf : K.failure f) :
    Φ K (Exec.raise a pc f) Known.control := by
  unfold Exec.raise
  split
  · refine L.seq (L.resize _) fun _ _ => ?_
    refine L.bind (L.alloc rfl fun _ => hf) fun K' e h he => ?_
    exact L.seq (L.push he) fun _ _ => L.pure (h.code ha)
  · exact L.ofSame (L.leave a (r := .error f) hf) fun _ h => h

theorem conclude {e : Effect} (ha : K.activation a) (pc next : Int) (he : Leads (fun K x => Φ K x Known.control) K e) :
    Φ K (Exec.conclude a pc next e) Known.control := by
  cases e with
  | next => exact L.pure ha
  | jump d => exact L.pure ha
  | leave r => exact L.ofSame (L.leave a he) fun _ h => h
  | wait p call => exact L.seq (L.pushKont ha rfl) fun _ _ => he

theorem fallOff (a : Activation) : Φ K (Exec.fallOff a) (Same K K.control) := by
  refine L.seq L.height fun h _ => ?_
  split
  · refine L.seq L.stack fun s hs => ?_
    exact L.seq (L.lift (gives_top hs)) fun v hv => L.leave a (r := .ok v) hv
  · exact L.leave a (r := .ok .nil) nil

/-! ## Continuations -/

theorem resumeActivation (ha : K.activation a) (pc next : Int) (p : Pending) (hr : K.result r) :
    Φ K (Exec.resumeActivation a pc next p r) Known.control := by
  unfold Exec.resumeActivation
  split
  · dsimp only
    split
    · refine L.seq (L.sameFrame _ _) fun same _ => ?_
      split
      · split
        · exact L.seq (L.push hr) fun _ _ => L.pure ha
        · exact L.pure ha
      · exact L.raise ha pc hr
    · exact L.raise ha pc hr
  · exact L.raise ha pc hr
  · exact L.seq (L.push hr) fun _ _ => L.pure ha
  · exact L.seq (L.push hr) fun _ _ => L.pure ha
  · exact L.pure ha
  · split
    · exact L.pure ha
    · exact L.seq (L.demand (maybe_true _)) fun _ _ => L.pure ha

theorem onValue {f : Value → Exec Control} (hr : K.result r) (hf : ∀ v, K.value v → Φ K (f v) Known.control) :
    Φ K (Exec.onValue r f) Known.control := by
  cases r with
  | ok v => exact hf v hr
  | error e => exact L.pure hr

omit L in
theorem result_escape (hr : K.result r) : K.result (r.mapError Failure.escape) := by
  cases r with
  | ok v => exact hr
  | error f => exact failure_escape hr

theorem pullOn {d : Drive} (hd : K.drive d) (hr : K.result r) : Φ K (Exec.resumeKont (.pull d) r) Known.control := by
  cases r with
  | ok v => exact L.ofSame (L.feed hd hr) fun _ h => h
  | error f =>
    refine L.seq (L.endDrive hd) fun _ _ => ?_
    have hm := hd.mode
    split
    · split
      · rename_i out h
        rw [h] at hm
        exact L.pure hm
      · exact L.pure hr
    · exact L.pure hr

theorem feedOn {d : Drive} (hd : K.drive d) (hr : K.result r) : Φ K (Exec.resumeKont (.feed d) r) Known.control := by
  cases r with
  | ok v =>
    have hm := hd.mode
    unfold Exec.resumeKont
    dsimp only
    split
    · rename_i out h
      rw [h] at hm
      exact L.seq (L.appendElem hm hr) fun _ _ => L.pull hd
    · exact L.pull hd
  | error f => exact L.seq (L.endDrive hd) fun _ _ => L.pure hr

/-- A continuation is gone on with, given how a fiber that is over is left. -/
theorem resumeKont {k : Kont} (finish : k.isLast = true → Finishes Φ) (hk : K.kont k) (hr : K.result r) :
    Φ K (Exec.resumeKont k r) Known.control := by
  cases k with
  | activation a pc next p => exact L.resumeActivation hk pc next p hr
  | native caller height guarded =>
    refine L.seq (L.setFrame _) fun _ _ => ?_
    refine L.seq (L.resize _) fun _ _ => ?_
    dsimp only
    split
    · exact L.seq L.release fun _ _ => L.pure hr
    · exact L.pure hr
  | drop height => exact L.seq (L.resize _) fun _ _ => L.pure hr
  | boundary => exact L.pure (result_escape hr)
  | negate => exact L.onValue hr fun v _ => L.pure (value_ofBool _)
  | each self b i => exact L.onValue hr fun _ _ => L.ofSame (L.eachFrom hk.1 hk.2 i) fun _ h => h
  | map self b out i =>
    cases r with
    | ok v =>
      refine L.seq (L.appendElem hk.2.2 hr) fun _ _ => ?_
      exact L.ofSame (L.mapFrom hk.1 hk.2.1 hk.2.2 i) fun _ h => h
    | error f => exact L.seq L.release fun _ _ => L.pure hr
  | times count i self b => exact L.onValue hr fun _ _ => L.ofSame (L.timesFrom count i hk.1 hk.2) fun _ h => h
  | loop b =>
    cases r with
    | ok v => exact L.ofSame (L.loopAgain hk) fun _ h => h
    | error f =>
      unfold Exec.resumeKont
      dsimp only
      split
      · exact L.pure hr
      · exact L.pure hr
  | construct obj =>
    refine L.seq L.release fun _ _ => ?_
    exact L.onValue hr fun _ _ => L.pure hk
  | puts w rest =>
    refine L.onValue hr fun t ht => ?_
    refine L.seq (L.convertedText hk.1 ht) fun s _ => ?_
    exact L.seq (L.write _) fun _ _ => L.ofSame (L.putsAll hk.2) fun _ h => h
  | append self w =>
    refine L.onValue hr fun t ht => ?_
    refine L.seq (L.convertedText hk.2 ht) fun s _ => ?_
    exact L.ofSame (L.appendText hk.1 s) fun _ => control_of_answer
  | equal self other n i =>
    refine L.onValue hr fun w _ => ?_
    split
    · exact L.ofSame (L.equalFrom hk.1 hk.2 n i) fun _ h => h
    · exact L.pure (K.imm _ (by decide))
  | pull d => exact L.pullOn hk hr
  | feed d => exact L.feedOn hk hr
  | fiberBody => exact L.ofSame (finish rfl hr) fun _ h => h
  | fiberIteration =>
    cases r with
    | ok v => exact L.ofSame (finish rfl (r := .error { cause := .exhausted, value := v }) hr) fun _ h => h
    | error f => exact L.ofSame (finish rfl (r := .error f) hr) fun _ h => h

/-! ## Calls by the host -/

/-- A top level is started, given how it is forgotten what an earlier run left undone. -/
theorem startTopBy (fn : FnId) (restart : Keeps Φ K Exec.restart) : Φ K (Exec.startTop fn) (Same K K.control) := by
  refine L.seq restart fun _ _ => ?_
  refine L.seq (L.pushKont trivial rfl) fun _ _ => ?_
  exact L.look (fun _ _ => rfl) fun m hm => L.callDirect fn hm.main values_nil

end CallLogic

/-- What is done when a function is called that was found. -/
def Function.enter (f : Function) (fn : FnId) (self : Value) (base argc : Int) (kw : Value) (blk : Option Block) :
    Exec Control := do
  let attr (ivar : Ident) (write : Bool) : Exec Control := do
    let r ← (Exec.callAttr f.arity self base argc ivar write).run
    Exec.resize (base - 1)
    return .deliver r
  match f.body with
  | .code seq => Exec.invoke fn seq self base argc kw blk .nil false
  | .builtin b =>
    match ← Exec.enterBuiltin f.arity self base argc kw blk with
    | .ok args => Exec.attempt (b.run self args blk)
    | .error e => return .failure e
  | .attrReader ivar => attr ivar false
  | .attrWriter ivar => attr ivar true

namespace Exec

variable {m : Machine} {r : Except Failure Value} {k : Kont} {rest : List Kont}

theorem call_eq (fn : FnId) (self : Value) (base argc : Int) (kw : Value) (blk : Option Block) :
    call fn self base argc kw blk = (do (← function fn).enter fn self base argc kw blk) := rfl

theorem deliver_nil (hk : m.context.konts = []) : step (.deliver r) m = .ok (.inr (.done r)) m := by
  unfold step
  dsimp only
  rw [bind_of_ok (show (get : Exec Machine) m = .ok m m from rfl), hk]
  rfl

theorem deliver_cons (hk : m.context.konts = k :: rest) : step (.deliver r) m =
    (resumeKont k r >>= fun c => pure (.inl c) : Exec (Control ⊕ Outcome)) { m with context.konts := rest } := by
  unfold step
  dsimp only
  rw [bind_of_ok (show (get : Exec Machine) m = .ok m m from rfl), hk]
  rfl

end Exec

theorem jumpBack_eq {s : Site} (hop : s.op = .jmpBack) (pc next : Int) : (do
      match ← s.perform.run with
      | .ok effect => Exec.conclude s.act pc next effect
      | .error f => Exec.raise s.act pc f) = (do
      let d ← s.i32 1
      Exec.safepoint
      return .exec s.act (next + d)) := by
  simp only [Site.perform, Site.jump, hop, run_liftM_bind, bind_assoc, ExceptT.run_pure, pure_bind]
  rfl

namespace CollectLogic

open Known Logic CallLogic

variable {K : Known} {v : Value} {a : Activation}
  {Φ Ψ : ∀ {α : Type}, Known → Exec α → (Known → α → Prop) → Prop} (L : CollectLogic Φ Ψ)

include L

/-! ## Steps -/

/-- A jump back, which is also a safepoint. -/
theorem jumpBack {s : Site} (hop : s.op = .jmpBack) (ha : K.activation s.act) (pc next : Int) : Ψ K (do
    match ← s.perform.run with
    | .ok effect => Exec.conclude s.act pc next effect
    | .error f => Exec.raise s.act pc f) Known.control := by
  rw [jumpBack_eq hop]
  refine L.seqThen (L.i32 s 1) fun d _ => ?_
  exact L.giving L.safepoint fun K' _ h _ => h.code ha

theorem exec (pc : Int) (ha : K.activation a) (hr : K.ready (.exec a pc)) : Ψ K (Exec.exec a pc) Known.control := by
  unfold Exec.exec
  split
  · exact L.plain (L.ofSame (L.fallOff a) fun _ h => h)
  split
  · exact L.plain (L.throw rfl)
  extract_lets byte
  split
  · exact L.plain (L.throw rfl)
  · rename_i op hop
    have hadm := hr op hop
    by_cases hb : op = .jmpBack
    · exact L.jumpBack (s := ⟨a, pc.toNat, op⟩) hb ha pc _
    · refine L.plain (L.bind (L.perform L.calling hadm hb) fun K' r h hres => ?_)
      cases r with
      | ok e => exact L.conclude (h.code ha) pc _ hres
      | error f => exact L.raise (h.code ha) pc hres

/-- A function is called, given how a fiber that runs is abandoned by the one builtin that does so. -/
theorem called {f : Function} (fn : FnId) (base argc : Int) {kw : Value} {blk : Option Block}
    (abandon : f.body = .builtin .enumRewind → Abandons Φ) (hf : K.function f) (hv : K.value v) (hk : K.value kw)
    (hb : K.blockArg blk) (hn : argc.toNat + 1 ≤ K.changes) :
    Ψ K (f.enter fn v base argc kw blk) Known.control := by
  unfold Function.enter
  extract_lets attr
  have attrDone (ivar : Ident) (write : Bool) : Φ K (attr ivar write) Known.control := by
    refine L.bind (L.callAttr _ _ _ _ _ hv) fun K' r _ hr => ?_
    refine L.seq (L.resize _) fun _ _ => L.pure ?_
    cases r with
    | ok w =>
      obtain ⟨rfl, hw⟩ := hr
      exact hw
    | error f => exact hr
  split
  · exact L.invoke fn _ base argc false (hf.code _ ‹_›) hv hk hb nil
  · rename_i b hbody
    refine L.andThen (L.enterBuiltin f.arity base argc hv hk hb) fun K' r h hr => ?_
    cases r with
    | error e => exact L.plain (L.pure hr)
    | ok args =>
      obtain ⟨hargs, hlen, hch⟩ := hr
      by_cases hc : b = .collect
      · subst hc
        have run : Exec.attempt (Builtin.collect.run v args blk) = (do
            let _ ← Exec.collect
            return .value .nil) := by
          simp only [Exec.attempt, Builtin.run, Builtin.runCollector, run_liftM_bind, bind_assoc,
            ExceptT.run_pure, pure_bind]
        dsimp only
        rw [run]
        exact L.giving L.collect fun _ _ _ _ => nil
      · exact L.plain (L.attempt (L.runBuiltin b hc (fun h => abandon (h ▸ hbody)) (h.value hv) hargs (h.blockArg hb) (by omega)))
  · exact L.plain (attrDone _ _)
  · exact L.plain (attrDone _ _)

theorem call (abandon : Abandons Φ) (fn : FnId) (base argc : Int) {kw : Value} {blk : Option Block} (hv : K.value v)
    (hk : K.value kw) (hb : K.blockArg blk) (hn : argc.toNat + 1 ≤ K.changes) :
    Ψ K (Exec.call fn v base argc kw blk) Known.control := by
  rw [Exec.call_eq]
  exact L.seqThen (L.function fn) fun f hf => L.called fn base argc (fun _ => abandon) hf hv hk hb hn

/-- A step other than one that hands something to what is left to be done. -/
theorem stepAside {c : Control} (abandon : Abandons Φ) (hd : ∀ r, c ≠ .deliver r) (hc : K.control c) (hr : K.ready c) :
    Ψ K (Exec.step c) Known.end := by
  cases c with
  | exec a pc => exact L.giving (L.exec pc hc hr) fun _ _ _ h => h
  | call fn self base argc kw blk => exact L.giving (L.call abandon fn base argc hc.1 hc.2.1 hc.2.2 hr) fun _ _ _ h => h
  | yield b base argc => exact L.giving (L.enterBlock hc base argc) fun _ _ _ h => h
  | host h => exact L.plain (L.pure hc)
  | deliver r => exact absurd rfl (hd r)

/-- A step, given how fibers are left, how a machine is looked at and how a continuation is taken up. -/
theorem stepBy (finish : Finishes Φ) (abandon : Abandons Φ) (whole : Φ K get (Same K K.machine))
    (set : ∀ ks, (∀ k ∈ ks, K.kont k) → Keeps Φ K (modify fun m => { m with context.konts := ks })) {c : Control}
    (hc : K.control c) (hr : K.ready c) : Ψ K (Exec.step c) Known.end := by
  cases c with
  | deliver r =>
    refine L.seqThen whole fun m hm => ?_
    have hk := hm.context.konts
    split
    · exact L.plain (L.pure hc)
    · rename_i k rest h
      rw [h] at hk
      refine L.seqThen (set rest fun k hk' => hk k (by simp [hk'])) fun _ _ => ?_
      exact L.giving (L.plain (L.resumeKont (fun _ => finish) (hk k (by simp)) hc)) fun _ _ _ h => h
  | _ => exact L.stepAside abandon (fun _ h => nomatch h) hc hr

end CollectLogic

end RubyMachine
