import RubyMachine.Proofs.Machine.Frames

/-! Scopes and procs in every logic. -/

namespace RubyMachine.Logic

open Known

variable {K : Known} {v : Value}

theorem value_scopeSelf {x : Nat × Nat} {s : Scope} (hs : K.scope x s) : K.value s.self := by
  cases h : s.self.isRef with
  | true => exact (hs.self h).1
  | false => exact K.imm _ h

variable {Φ : ∀ {α : Type}, Known → Exec α → (Known → α → Prop) → Prop} (L : Logic Φ)

include L

theorem linkMethod (hv : K.value v) : Keeps Φ K (Exec.linkMethod v) := by
  have he : K.env (.heap v) := hv
  refine L.seq (L.outer he) fun o ho => ?_
  split
  · exact L.setWordAt he _ hv
  refine L.seq (L.asScope ho) fun _ _ => ?_
  exact L.seq (L.method (e := .heap o) ho) fun w hw => L.setWordAt he _ hw

/-- A new scope refers to itself. -/
theorem tieScope (hv : K.value v) :
    Keeps Φ K (Exec.update v fun
      | .scope s => .scope { s with self := v }
      | o => o) :=
  L.updateScope hv fun _ hs => { hs with self := fun _ => ⟨hv, K.home_self v⟩ }

theorem allocScope {words : Array Value} (hw : ∀ w ∈ words, K.value w) (base : Nat) :
    Φ K (Exec.alloc (.scope ⟨words, base, .nil⟩)) Known.value :=
  L.alloc rfl fun _ => ⟨hw, fun h => absurd (show Value.nil.isRef = true from h) (by decide)⟩

theorem allocProc {p : Proc} (hs : K.value p.self) (ho : K.value p.outer) : Φ K (Exec.alloc (.proc p)) Known.value :=
  L.alloc rfl fun _ => ⟨hs, ho⟩

/-! ## Frames that escape -/

theorem scopeWords (frame : Nat) (slots : Int) (hv : K.value v) :
    Φ K (Exec.scopeWords frame slots v) (Same K fun ws => ∀ w ∈ ws, K.value w) := by
  refine L.seq L.stack fun s hs => ?_
  refine L.check rfl fun _ => ?_
  refine L.seq (L.mapM (P := K.value) fun i _ => L.lift (gives_word? hs _)) fun ws hws => L.ret ?_
  intro w hw
  rw [List.mem_toArray] at hw
  exact values_cons hv hws w hw

/-- The receiver of a scope, by the reference that the scope has to itself. -/
theorem scopeSelf {β : Type} {R : Known → β → Prop} {f : Value → Exec β} (hv : K.value v)
    (hf : ∀ w, K.value w → Φ K (f w) R) : Φ K (do
      let s ← Exec.asScope v
      let w ← (Env.heap s.self).self
      f w) R := by
  refine L.seq (L.asScope hv) fun s hs => ?_
  exact L.seq (L.self (e := .heap s.self) (value_scopeSelf hs)) hf

theorem escape (fuel : Nat) (hv : K.value v) : Φ K (Exec.escape fuel v) Known.value := by
  induction fuel generalizing K v with
  | zero => exact L.throw rfl
  | succ fuel ih =>
    unfold Exec.escape
    split
    · exact L.pure hv
    refine L.seq (L.lift (gives_asFrame v)) fun frame _ => ?_
    refine L.seq (L.word _) fun ep hep => ?_
    split
    · exact L.pure hep
    have he (K : Known) : K.env (.stack frame) := trivial
    refine L.seq (L.outer (he K)) fun o ho => ?_
    refine L.bind (ih ho) fun K1 outer _ hout => ?_
    refine L.seq (L.slotCount (he K1)) fun slots _ => ?_
    refine L.seq (L.self (he K1)) fun w hw => ?_
    refine L.seq (L.scopeWords frame slots hw) fun words hwords => ?_
    refine L.bind (L.allocScope hwords _) fun K2 ref h2 href => ?_
    have hh (K' : Known) (h : K2 ≤ K') : K'.env (.heap ref) := h.value href
    refine L.seq (L.tieScope href) fun _ _ => ?_
    refine L.seq (L.setWordAt (hh K2 (le_refl K2)) _ nil) fun _ _ => ?_
    refine L.seq (L.setWordAt (hh K2 (le_refl K2)) _ href) fun _ _ => ?_
    refine L.seq (L.setWordAt (hh K2 (le_refl K2)) _ (h2.value hout)) fun _ _ => ?_
    refine L.seq (L.linkMethod href) fun _ _ => ?_
    refine L.seq (L.block (he K2)) fun blk hblk => ?_
    -- the block of the frame comes last, as a proc over its own scope
    have last (K' : Known) (h : K2 ≤ K') (w : Value) (hw : K'.value w) : Φ K' (do
        (Env.heap ref).setWordAt Frame.blockWord w
        Exec.setWord (frame + Frame.envWord) ref
        return ref) Known.value := by
      refine L.seq (L.setWordAt (hh K' h) _ hw) fun _ _ => ?_
      exact L.seq (L.setWord _ (h.value href)) fun _ _ => L.pure (h.value href)
    split
    · refine L.bind (ih (value_frameAt _)) fun K3 scope h3 hscope => ?_
      refine L.scopeSelf hscope fun w hw => ?_
      refine L.bind (L.allocProc hw hscope) fun K4 p h4 hp => ?_
      exact last K4 (h3.trans h4) p hp
    · exact last K2 (le_refl K2) blk hblk

theorem moveToHeap (hv : K.value v) : Φ K (Exec.moveToHeap v) Known.value :=
  L.seq L.stack fun _ _ => L.escape _ hv

theorem makeProc (fn : FnId) (hv : K.value v) : Φ K (Exec.makeProc fn v) Known.value := by
  refine L.bind (L.moveToHeap hv) fun K' scope _ hscope => ?_
  exact L.scopeSelf hscope fun w hw => L.allocProc hw hscope

theorem blockToProc {b : Option Block} (hb : K.blockArg b) : Φ K (Exec.blockToProc b) Known.value := by
  unfold Exec.blockToProc
  split
  · exact L.makeProc _ (value_frameAt _)
  · exact L.pure hb
  · exact L.allocProc nil nil
  · exact L.pure nil

theorem blockFromValue (hv : K.value v) : Tries Φ K (Exec.blockFromValue v) (Same K K.blockArg) := by
  unfold Exec.blockFromValue
  split
  · exact L.tryPure ⟨rfl, trivial⟩
  split
  · exact L.tryPure ⟨rfl, trivial⟩
  refine L.tryGo (L.asProc? hv) fun p _ => ?_
  cases p with
  | some _ => exact L.tryPure ⟨rfl, hv⟩
  | none =>
    refine L.tryGo (L.classOf hv) fun c _ => ?_
    exact L.tryGo (L.className c) fun _ _ => L.tryFail _

theorem newBinding : Tries Φ K Exec.newBinding Known.value := by
  refine L.tryGo L.callerFrame? fun f _ => ?_
  cases f with
  | some f =>
    refine L.tryNew (L.moveToHeap (value_frameAt f)) fun K' ref _ href => ?_
    exact L.tryGo (L.asScope href) fun _ _ => L.tryPure href
  | none => exact L.tryFail _

/-! ## Names of local slots -/

theorem searchScopes {α : Type} {P : α → Prop} {f : Value → Code.Sequence → Exec (Option α)}
    (hf : ∀ v seq, K.value v → Φ K (f v seq) (Same K (Maybe P))) (fuel : Nat) (hv : K.value v) :
    Φ K (Exec.searchScopes f fuel v) (Same K (Maybe P)) := by
  induction fuel generalizing v with
  | zero => exact L.throw rfl
  | succ fuel ih =>
    have he : K.env (.heap v) := hv
    refine L.seq (L.asScope hv) fun _ _ => ?_
    refine L.seq (L.fn he) fun fn _ => ?_
    refine L.seq (L.sequence fn) fun seq _ => ?_
    refine L.seq (hf v seq hv) fun r hr => ?_
    cases r with
    | some a => exact L.ret hr
    | none =>
      refine L.seq (L.outer he) fun o ho => ?_
      split
      · exact L.ret trivial
      · exact ih ho

theorem scopeFuel : Keeps Φ K Exec.scopeFuel := L.look (fun _ _ => rfl) fun _ _ => L.ret trivial

theorem scopeChain (fuel : Nat) (hv : K.value v) : Keeps Φ K (Exec.scopeChain fuel v) := by
  induction fuel generalizing v with
  | zero => exact L.throw rfl
  | succ fuel ih =>
    have he : K.env (.heap v) := hv
    refine L.seq (L.asScope hv) fun _ _ => ?_
    refine L.seq (L.fn he) fun fn _ => ?_
    refine L.seq (L.sequence fn) fun seq _ => ?_
    refine L.seq (L.outer he) fun o ho => ?_
    split
    · exact L.ret trivial
    · exact L.seq (ih ho) fun _ _ => L.ret trivial

theorem localNames (hv : K.value v) : Keeps Φ K (Exec.localNames v) := by
  refine L.seq L.scopeFuel fun fuel _ => ?_
  refine L.seq (L.scopeChain fuel hv) fun chain _ => ?_
  exact L.look (fun _ _ => rfl) fun _ _ => L.ret trivial

theorem findLocal {name : Value} (hv : K.value v) (hn : K.value name) :
    Tries Φ K (Exec.findLocal v name) (Same K fun r => K.value r.1) := by
  unfold Exec.findLocal
  dsimp only
  split
  · exact L.tryGo (L.inspect hn) fun _ _ => L.tryFailed _
  refine L.tryGo L.scopeFuel fun fuel _ => ?_
  refine L.tryGo (L.searchScopes (P := fun r => K.value r.1) (fun w seq hw => L.ret ?_) fuel hv) fun r hr => ?_
  · cases seq.slotOf? name.toSymbol with
    | none => trivial
    | some i => exact hw
  cases r with
  | some r => exact L.tryPure ⟨rfl, hr⟩
  | none =>
    refine L.tryGo (L.identName _) fun _ _ => ?_
    exact L.tryGo (L.inspect hv) fun _ _ => L.tryFail _

theorem hasLocal {name : Value} (hv : K.value v) (hn : K.value name) : Φ K (Exec.hasLocal v name) fun _ _ => True :=
  L.bind (L.findLocal hv hn) fun _ _ _ _ => L.pure trivial

end RubyMachine.Logic
