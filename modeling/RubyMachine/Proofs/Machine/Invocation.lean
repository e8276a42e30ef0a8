import RubyMachine.Proofs.Machine.Fibers

/-! Entering code, builtins and blocks in every logic. The first thing that entered code comes to is a
safepoint. -/

namespace RubyMachine

namespace Logic

open Known

variable {K : Known} {v : Value}
  {Φ : ∀ {α : Type}, Known → Exec α → (Known → α → Prop) → Prop} (L : Logic Φ)

include L

theorem checkArity (arity : Arity) (given : Int) :
    Tries Φ K (Exec.checkArity arity given) (Same K fun _ => True) := by
  unfold Exec.checkArity
  split
  · split
    · exact L.tryFail _
    · exact L.tryPure ⟨rfl, trivial⟩
  · split
    · exact L.tryFail _
    · exact L.tryPure ⟨rfl, trivial⟩

theorem callAttr (arity : Arity) (base argc : Int) (ivar : Ident) (write : Bool) (hv : K.value v) :
    Tries Φ K (Exec.callAttr arity v base argc ivar write) (Same K K.value) := by
  refine L.trySeq (L.checkArity arity argc) fun _ _ => ?_
  split
  · refine L.tryGo L.stack fun s hs => ?_
    refine L.tryGo (L.lift (gives_get hs _)) fun w hw => ?_
    refine L.tryGo (L.setIvar hv hw) fun ok _ => ?_
    split
    · exact L.tryPure ⟨rfl, hw⟩
    · exact L.tryGo (L.inspect hv) fun _ _ => L.tryFail _
  · exact L.tryLift (L.getIvar hv)

omit L in
theorem gives_slice_length (s : Stack) (low high : Int) :
    Gives (fun l => (l.length : Int) ≤ max 0 (high - low)) (s.slice low high) := by
  unfold Stack.slice
  refine gives_ite (fun _ => rfl) fun _ => ?_
  show ((s.words low.toNat (high - low).toNat).length : Int) ≤ _
  rw [Stack.words, Array.length_toList, Array.size_extract]
  omega

end Logic

namespace CallLogic

open Known Logic

variable {K : Known} {v kw : Value} {vs : List Value} {blk : Option Block}
  {Φ : ∀ {α : Type}, Known → Exec α → (Known → α → Prop) → Prop} (L : CallLogic Φ)

include L

/-- The arguments of a builtin are those that were counted, and one more for keywords. -/
theorem enterBuiltin (arity : Arity) (base argc : Int) (hv : K.value v) (hk : K.value kw) (hb : K.blockArg blk) :
    Φ K (Exec.enterBuiltin arity v base argc kw blk) (Known.outcome fun K' args =>
      K'.values args ∧ args.length ≤ argc.toNat + 1 ∧ K'.changes = K.changes) := by
  unfold Exec.enterBuiltin
  extract_lets count
  have counted (argc' : Int) (hc : argc' ≤ argc + 1) : Φ K (count argc') (Known.outcome fun K' args =>
      K'.values args ∧ args.length ≤ argc.toNat + 1 ∧ K'.changes = K.changes) := by
    refine L.bind (L.checkArity arity argc') fun K' r h hr => ?_
    cases r with
    | error f => exact L.seq (L.resize _) fun _ _ => L.pure hr
    | ok _ =>
      obtain ⟨rfl, -⟩ := hr
      refine L.seq L.frame? fun caller _ => ?_
      refine L.seq L.frameValue fun w hw => ?_
      refine L.seq (L.push hv) fun _ _ => ?_
      refine L.seq L.stack fun s _ => ?_
      refine L.seq (L.push hw) fun _ _ => ?_
      refine L.seq (L.push nil) fun _ _ => ?_
      refine L.seq (L.lift (gives_flags (K := K') argc' 0)) fun w hw => ?_
      refine L.seq (L.push hw) fun _ _ => ?_
      refine L.seq (L.setFrame _) fun _ _ => ?_
      extract_lets enter
      have entered (guarded : Bool) : Φ K' (enter guarded) (Known.outcome fun K'' args =>
          K''.values args ∧ args.length ≤ argc.toNat + 1 ∧ K''.changes = K'.changes) := by
        refine L.seq (L.pushKont trivial rfl) fun _ _ => ?_
        refine L.seq L.stack fun s hs => ?_
        refine L.seq (L.lift ((gives_slice hs _ _).and (gives_slice_length s _ _))) fun args hargs => L.pure ?_
        exact ⟨hargs.1, by omega, rfl⟩
      split
      · exact L.seq (L.protect hb) fun _ _ => entered true
      · exact entered false
  split
  · exact counted argc (by omega)
  · exact L.seq (L.push hk) fun _ _ => counted (argc + 1) le_rfl

theorem callNative (body : ProcBody) (hvs : K.values vs) : Φ K (Exec.callNative body vs) Known.control := by
  cases body with
  | host name => exact L.pure ⟨nil, hvs, trivial⟩
  | send name =>
    cases vs with
    | nil => exact L.pure (failure_of _)
    | cons w ws =>
      refine L.ofSame (L.send name (hvs w (by simp)) (fun x hx => hvs x (by simp [hx])) nil trivial) fun _ h => h
  | emit => exact L.bind (L.pack hvs) fun K' p _ hp => L.ofSame (L.suspend hp) fun _ h => h
  | code _ => exact L.throw rfl

end CallLogic

namespace CollectLogic

open Known Logic

variable {K : Known} {v kw outer : Value} {blk : Option Block}
  {Φ Ψ : ∀ {α : Type}, Known → Exec α → (Known → α → Prop) → Prop} (L : CollectLogic Φ Ψ)

include L

theorem invoke (fn : FnId) (seq : Code.Sequence) (low argc : Int) (asBlock : Bool) (hseq : K.code seq)
    (hv : K.value v) (hk : K.value kw) (hb : K.blockArg blk) (ho : K.value outer) :
    Ψ K (Exec.invoke fn seq v low argc kw blk outer asBlock) Known.control := by
  have bound : Tries Φ K ((if asBlock then Exec.bindBlock else Exec.bindMethod) seq low argc kw blk)
      fun _ _ => True := by
    split
    · exact L.bindBlock seq low argc hk hb
    · exact L.bindMethod seq low argc hk hb
  refine L.andThen bound fun K' r h hr => ?_
  cases r with
  | error f => exact L.plain (L.seq (L.resize _) fun _ _ => L.pure hr)
  | ok _ =>
    refine L.seqThen L.frame? fun caller _ => ?_
    refine L.seqThen L.frameValue fun w hw => ?_
    refine L.seqThen (L.push (h.value hv)) fun _ _ => ?_
    refine L.seqThen L.stack fun s _ => ?_
    extract_lets frame env lambda enter
    have entered (method : Value) (hm : K'.value method) : Ψ K' (enter method) Known.control := by
      refine L.seqThen (L.push hw) fun _ _ => ?_
      refine L.seqThen (L.push (value_frameAt _)) fun _ _ => ?_
      refine L.seqThen (L.lift (gives_flags (K := K') _ _)) fun w hw => ?_
      refine L.seqThen (L.push hw) fun _ _ => ?_
      refine L.seqThen (L.push hm) fun _ _ => ?_
      refine L.seqThen (L.push (h.value ho)) fun _ _ => ?_
      refine L.seqThen (L.push (value_ofInt _)) fun _ _ => ?_
      refine L.seqThen (L.push (value_ofInt _)) fun _ _ => ?_
      refine L.seqThen (L.push (value_word (h.blockArg hb))) fun _ _ => ?_
      refine L.seqThen (L.setFrame _) fun _ _ => ?_
      refine L.giving L.safepoint fun K'' _ h' _ => (h.trans h').code hseq
    split
    · exact entered _ (value_frameAt _)
    · refine L.seqThen (L.envAt (h.value ho)) fun e he => ?_
      exact L.seqThen (L.method he) entered

theorem enterBlock {b : Block} (hb : K.block b) (base argc : Int) :
    Ψ K (Exec.enterBlock b base argc) Known.control := by
  cases b with
  | literal fn frame =>
    refine L.seqThen (L.sequence fn) fun seq hseq => ?_
    refine L.seqThen (L.envAt (value_frameAt frame)) fun e he => ?_
    refine L.seqThen (L.self he) fun w hw => ?_
    refine L.seqThen (L.updateStack fun s hs => gives_set hs hw _) fun _ _ => ?_
    exact L.invoke fn seq base argc true hseq hw nil K.blockArg_none (value_frameAt frame)
  | proc v =>
    refine L.seqThen (L.asProc? hb) fun p hp => ?_
    cases p with
    | none => exact L.plain (L.seq (L.resize _) fun _ _ => L.pure (failure_of _))
    | some p =>
      dsimp only
      split
      · rename_i fn _
        refine L.seqThen (L.sequence fn) fun seq hseq => ?_
        refine L.seqThen (L.updateStack fun s hs => gives_set hs hp.1 _) fun _ _ => ?_
        exact L.invoke fn seq base argc _ hseq hp.1 nil K.blockArg_none hp.2
      · refine L.plain (L.seq L.stack fun s hs => ?_)
        refine L.seq (L.lift (gives_slice hs _ _)) fun args hargs => ?_
        refine L.seq (L.pushKont trivial rfl) fun _ _ => ?_
        exact L.callNative _ hargs
  | symbol name =>
    refine L.plain ?_
    unfold Exec.enterBlock
    dsimp only
    split
    · exact L.seq (L.resize _) fun _ _ => L.pure (failure_of _)
    refine L.seq (L.forget (L.takeFromStack fun s hs => gives_remove hs _)) fun _ _ => ?_
    refine L.seq L.stack fun s hs => ?_
    refine L.seq (L.lift (gives_get hs _)) fun w hw => ?_
    refine L.seq (L.classOf hw) fun c _ => ?_
    refine L.seq L.findMethod? fun r _ => ?_
    cases r with
    | none =>
      refine L.seq (L.resize _) fun _ _ => ?_
      exact L.seq (L.noMethod name hw) fun f hf => L.pure hf
    | some fn => exact L.pure ⟨hw, nil, trivial⟩

end CollectLogic

end RubyMachine
