import RubyMachine.Proofs.Machine.Objects

/-! Frames, environments and scopes in every logic. -/

namespace RubyMachine

/-- Where the words of an environment are is known. -/
def Known.env (K : Known) : Env → Prop
  | .stack _ => True
  | .heap v => K.value v

theorem Known.Le.env {K K' : Known} (h : K ≤ K') {e : Env} (he : K.env e) : K'.env e := by
  cases e with
  | stack _ => trivial
  | heap v => exact h.value he

namespace Logic

open Known

variable {K : Known} {v : Value} {e : Env}

theorem value_frameAt (n : Nat) : K.value (.frameAt n) := K.imm _ (Value.isRef_frameAt n)

theorem value_ofInt (n : Int) : K.value (.ofInt n) := K.imm _ (Value.isRef_ofInt n)

theorem block_ofWord (hv : K.value v) : K.blockArg (Block.ofWord v) := by
  unfold Block.ofWord
  split
  · trivial
  split
  · exact hv
  split <;> trivial

theorem value_word {b : Option Block} (hb : K.blockArg b) : K.value (Block.word b) := by
  cases b with
  | none => exact nil
  | some b =>
    cases b with
    | literal fn frame => exact K.imm _ (Value.isRef_ofBlock _ _)
    | proc v => exact hb
    | symbol name => exact K.imm _ (Value.isRef_ofSymbol _)

theorem gives_flags (slots : Int) (bits : UInt64) : Gives K.value (Frame.flags slots bits) := gives_fixnum _

variable {Φ : ∀ {α : Type}, Known → Exec α → (Known → α → Prop) → Prop} (L : Logic Φ)

include L

/-! ## Control words -/

theorem word (i : Int) : Φ K (Exec.word i) (Same K K.value) :=
  L.seq L.stack fun _ hs => L.lift (gives_word? hs i)

theorem setWord (i : Int) (hv : K.value v) : Keeps Φ K (Exec.setWord i v) := by
  refine L.seq L.stack fun s _ => ?_
  refine L.seq (L.lift (gives_checkWord s i)) fun _ _ => ?_
  exact L.modifyStack fun _ hs => ⟨rfl, rfl, stack_poke hs hv⟩

theorem frameFlags (frame : Int) : Keeps Φ K (Exec.frameFlags frame) := by
  refine L.seq (L.word _) fun v _ => ?_
  exact L.seq (L.lift (gives_asFixnum v)) fun _ _ => L.ret trivial

theorem isCodeFrame (frame : Int) : Keeps Φ K (Exec.isCodeFrame frame) :=
  L.seq (L.frameFlags frame) fun _ _ => L.ret trivial

theorem isLambdaFrame (frame : Int) : Keeps Φ K (Exec.isLambdaFrame frame) :=
  L.seq (L.frameFlags frame) fun _ _ => L.ret trivial

theorem prevFrame? (frame : Int) : Keeps Φ K (Exec.prevFrame? frame) := by
  refine L.seq (L.word _) fun v _ => ?_
  split <;> exact L.ret trivial

theorem codeFrameFrom? (fuel frame : Nat) : Keeps Φ K (Exec.codeFrameFrom? fuel frame) := by
  induction fuel generalizing frame with
  | zero => exact L.ret trivial
  | succ fuel ih =>
    refine L.seq (L.isCodeFrame _) fun b _ => ?_
    split
    · exact L.ret trivial
    refine L.seq (L.prevFrame? _) fun prev _ => ?_
    cases prev with
    | some prev => exact ih prev
    | none => exact L.ret trivial

theorem callerFrame? : Keeps Φ K Exec.callerFrame? := by
  refine L.seq L.frame? fun f _ => ?_
  cases f with
  | some f => exact L.seq L.stack fun s _ => L.codeFrameFrom? _ f
  | none => exact L.ret trivial

theorem frameValue : Φ K Exec.frameValue (Same K K.value) := by
  refine L.seq L.frame? fun f _ => L.ret ?_
  cases f with
  | some f => exact value_frameAt f
  | none => exact nil

/-! ## Environments -/

omit L in
theorem scope_set {x : Nat × Nat} {s : Scope} (hs : K.scope x s) (hv : K.value v) (i : Nat) :
    K.scope x { s with words := s.words.setIfInBounds i v } := by
  refine { hs with words := fun w hw => ?_ }
  rcases Array.mem_or_eq_of_mem_setIfInBounds hw with h | rfl
  · exact hs.words w h
  · exact hv

/-- Changes a scope where it is. -/
theorem updateScope {r : Value} (hr : K.value r) {g : Scope → Scope}
    (hg : ∀ s, K.scope (r.toRef.page, r.toRef.cell) s → K.scope (r.toRef.page, r.toRef.cell) (g s)) :
    Keeps Φ K (Exec.update r fun
      | .scope s => .scope (g s)
      | o => o) := by
  refine L.update hr fun o ho => ?_
  cases o with
  | scope s => exact ⟨.scope s (g s), hg s ho⟩
  | _ => exact ⟨.same _, ho⟩

theorem wordAt (he : K.env e) (i : Int) : Φ K (e.wordAt i) (Same K K.value) := by
  cases e with
  | stack f => exact L.word _
  | heap v =>
    refine L.seq (L.asScope he) fun s hs => ?_
    refine L.check rfl fun _ => L.demand ?_
    cases h : s.words[(s.base + i).toNat]? with
    | none => trivial
    | some w => exact hs.words w (Array.mem_of_getElem? h)

theorem setWordAt (he : K.env e) (i : Int) (hv : K.value v) : Keeps Φ K (e.setWordAt i v) := by
  cases e with
  | stack f => exact L.setWord _ hv
  | heap r =>
    refine L.seq (L.asScope he) fun s _ => ?_
    refine L.check rfl fun _ => ?_
    exact L.updateScope he fun s hs => scope_set hs hv _

theorem self (he : K.env e) : Φ K e.self (Same K K.value) := L.wordAt he _

theorem method (he : K.env e) : Φ K e.method (Same K K.value) := L.wordAt he _

theorem outer (he : K.env e) : Φ K e.outer (Same K K.value) := L.wordAt he _

theorem block (he : K.env e) : Φ K e.block (Same K K.value) := L.wordAt he _

theorem fn (he : K.env e) : Keeps Φ K e.fn := by
  refine L.seq (L.wordAt he _) fun v _ => ?_
  exact L.seq (L.lift (gives_asFixnum v)) fun _ _ => L.ret trivial

theorem setPc (he : K.env e) (pc : Int) : Keeps Φ K (e.setPc pc) :=
  L.seq (L.lift (gives_fixnum pc)) fun _ hv => L.setWordAt he _ hv

theorem slotCount (he : K.env e) : Keeps Φ K e.slotCount := by
  refine L.seq (L.wordAt he _) fun v _ => ?_
  exact L.seq (L.lift (gives_asFixnum v)) fun _ _ => L.ret trivial

theorem localAt (he : K.env e) (i : Int) : Φ K (e.localAt i) (Same K K.value) :=
  L.seq (L.slotCount he) fun _ _ => L.wordAt he _

theorem setLocalAt (he : K.env e) (i : Int) (hv : K.value v) : Keeps Φ K (e.setLocalAt i v) :=
  L.seq (L.slotCount he) fun _ _ => L.setWordAt he _ hv

theorem envAt (hv : K.value v) : Φ K (Exec.envAt v) (Same K K.env) := by
  unfold Exec.envAt
  split
  · refine L.seq (L.word _) fun ep hep => ?_
    split
    · exact L.seq (L.asScope hep) fun _ _ => L.ret hep
    · exact L.ret trivial
  split
  · exact L.seq (L.asScope hv) fun _ _ => L.ret hv
  · exact L.throw rfl

theorem frameEnv (frame : Nat) : Φ K (Exec.frameEnv frame) (Same K K.env) := L.envAt (value_frameAt frame)

theorem outerEnv (frame depth : Nat) : Φ K (Exec.outerEnv frame depth) (Same K K.env) := by
  refine L.seq (L.frameEnv frame) fun e he => ?_
  induction depth generalizing e with
  | zero => exact L.ret he
  | succ n ih =>
    refine L.seq (L.outer he) fun o ho => ?_
    refine L.check rfl fun _ => ?_
    exact L.seq (L.envAt ho) fun e he => ih e he

theorem sameFrame (target : Value) (frame : Nat) : Keeps Φ K (Exec.sameFrame target frame) := by
  unfold Exec.sameFrame
  split
  · exact L.ret trivial
  split
  · exact L.seq (L.word _) fun _ _ => L.ret trivial
  · exact L.ret trivial

theorem methodBlock? (he : K.env e) : Φ K (Exec.methodBlock? e) (Same K K.blockArg) := by
  refine L.seq (L.method he) fun v hv => ?_
  refine L.seq (L.envAt hv) fun e he => ?_
  exact L.seq (L.block he) fun w hw => L.ret (block_ofWord hw)

theorem currentBlock? : Φ K Exec.currentBlock? (Same K K.blockArg) := by
  refine L.seq L.callerFrame? fun f _ => ?_
  cases f with
  | some f =>
    refine L.seq (L.word _) fun v hv => ?_
    exact L.seq (L.envAt hv) fun e he => L.methodBlock? he
  | none => exact L.ret trivial

end Logic

end RubyMachine
