import RubyMachine.Proofs.Machine.Builtins

/-! Call sites in every logic. -/

namespace RubyMachine

/-- What comes next is a call with known arguments. -/
def Known.request (K : Known) : Control → Prop
  | .call _ self _ _ kw b => K.value self ∧ K.value kw ∧ K.blockArg b
  | _ => False

namespace Logic

open Known

variable {K : Known} {v kw : Value} {vs : List Value} {blk : Option Block}
  {Φ : ∀ {α : Type}, Known → Exec α → (Known → α → Prop) → Prop} (L : Logic Φ)

include L

theorem insertAll (hv : K.value v) {kvs : List (Value × Value)} (h : ∀ x ∈ kvs, K.value x.1 ∧ K.value x.2) :
    Keeps Φ K (Exec.insertAll v kvs) :=
  L.forM fun x hx => L.dictInsert hv (h x hx).1 (h x hx).2

theorem mergeHashes (hv : K.value v) : Tries Φ K (Exec.mergeHashes v) Known.value := by
  refine L.tryGo (L.asArray? hv) fun r hr => ?_
  cases r with
  | none => exact L.tryFail _
  | some elems =>
    refine L.tryNew L.newDict fun K' out h hout => ?_
    refine L.trySeq (L.tryForM fun x hx => ?_) fun _ _ => L.tryPure hout
    have hx' : K'.value x := h.value (hr x (Array.mem_toList_iff.mp hx))
    refine L.tryGo (L.asDict? hx') fun d hd => ?_
    cases d with
    | none => exact L.tryGo (L.inspect hx') fun _ _ => L.tryFail _
    | some d => exact L.tryLift (L.insertAll hout (values_toList hd))

theorem pushSpread (hvs : K.values vs) : Keeps Φ K (Exec.pushSpread vs) := by
  induction vs with
  | nil => exact L.ret trivial
  | cons v vs ih =>
    have hv := hvs v (by simp)
    have go : Keeps Φ K (Exec.pushSpread vs) := ih fun w hw => hvs w (by simp [hw])
    refine L.seq (L.asSplat? hv) fun r hr => ?_
    cases r with
    | none => exact L.seq (L.push hv) fun _ _ => go
    | some w =>
      refine L.seq (L.asArray? hr) fun a ha => ?_
      cases a with
      | some elems => exact L.seq (L.extend fun x hx => ha x (Array.mem_toList_iff.mp hx)) fun _ _ => go
      | none =>
        dsimp only
        split
        · exact L.seq (L.push hr) fun _ _ => go
        · exact go

theorem siteBlock (site : SendSite) (frame : Nat) : Tries Φ K (Exec.siteBlock site frame) (Same K K.blockArg) := by
  unfold Exec.siteBlock
  split
  · exact L.tryGo L.pop fun v hv => L.blockFromValue hv
  split
  · exact L.tryPure ⟨rfl, trivial⟩
  · exact L.tryPure ⟨rfl, trivial⟩

theorem siteKeywords (site : SendSite) : Tries Φ K (Exec.siteKeywords site) Known.value := by
  unfold Exec.siteKeywords
  split
  · exact L.tryLift (L.ofSame L.pop fun _ h => h)
  split
  · exact L.tryGo L.pop fun v hv => L.mergeHashes hv
  · exact L.tryPure nil

theorem delegateEnv (name : Ident) (fuel : Nat) {e : Env} (he : K.env e) :
    Tries Φ K (Exec.delegateEnv name fuel e) (Same K fun r => K.env r.1 ∧ K.values r.2) := by
  induction fuel generalizing e with
  | zero => exact L.tryLift (L.throw rfl)
  | succ fuel ih =>
    refine L.tryGo (L.fn he) fun fn _ => ?_
    refine L.tryGo (L.sequence fn) fun seq _ => ?_
    split
    · refine L.tryGo (L.localAt he _) fun w hw => ?_
      refine L.tryGo (L.asArray? hw) fun a ha => ?_
      have malformed : Tries Φ K (do throwThe Defect (.malformedDelegate (← Exec.identName seq.name)))
          (Same K fun r : Env × List Value => K.env r.1 ∧ K.values r.2) :=
        L.tryGo (L.identName _) fun _ _ => L.tryLift (L.throw rfl)
      match a with
      | none => exact malformed
      | some ⟨[]⟩ => exact malformed
      | some ⟨[_]⟩ => exact malformed
      | some ⟨[x, y]⟩ =>
        have hxy : K.values [x, y] := fun z hz => ha z (by simpa using hz)
        exact L.tryPure ⟨rfl, he, hxy⟩
      | some ⟨_ :: _ :: _ :: _⟩ => exact malformed
    · refine L.tryGo (L.outer he) fun o ho => ?_
      dsimp only
      split
      · exact L.tryGo (L.identName _) fun _ _ => L.tryFailed _
      · exact L.tryGo (L.envAt ho) fun e he => ih he

theorem forwardKeywords {forwarded : Value} (hf : K.value forwarded) (hk : K.value kw) :
    Tries Φ K (Exec.forwardKeywords forwarded kw) Known.value := by
  unfold Exec.forwardKeywords
  split
  · exact L.tryPure hk
  split
  · exact L.tryPure hf
  · refine L.tryNew (L.newArray (values_cons hf (values_cons hk values_nil))) fun K' a _ ha => ?_
    exact L.mergeHashes ha

theorem pushDelegated (a : Activation) (hk : K.value kw) (hb : K.blockArg blk) :
    Tries Φ K (Exec.pushDelegated a kw blk) fun K' r => K'.value r.1 ∧ K'.blockArg r.2 := by
  refine L.tryGo L.stack fun s _ => ?_
  refine L.tryGo L.scopeFuel fun n _ => ?_
  refine L.tryGo (L.frameEnv _) fun e he => ?_
  refine L.trySeq (L.delegateEnv _ _ he) fun r hr => ?_
  refine L.tryGo (L.asArray? (value_arg hr.2 0)) fun args hargs => ?_
  extract_lets pass
  have passed : Tries Φ K (pass ()) fun K' r => K'.value r.1 ∧ K'.blockArg r.2 := by
    refine L.tryBind (L.forwardKeywords (value_arg hr.2 1) hk) fun K' kw h hkw => ?_
    cases blk with
    | some b => exact L.tryPure ⟨hkw, h.blockArg hb⟩
    | none => exact L.tryGo (L.methodBlock? (h.env hr.1)) fun b hb => L.tryPure ⟨hkw, hb⟩
  split
  · exact L.tryGo (L.extend fun x hx => hargs x (Array.mem_toList_iff.mp hx)) fun _ _ => passed
  · exact passed

theorem startSend (a : Activation) (site : SendSite) (hs : K.site a.fn site.cache site.name) :
    Tries Φ K (Exec.startSend a site) Known.request := by
  refine L.trySeq (L.siteBlock site _) fun blk hb => ?_
  refine L.tryBind (L.siteKeywords site) fun K1 kw h1 hk => ?_
  refine L.tryGo L.height fun top _ => ?_
  extract_lets base go delegate
  have called (K' : Known) (h : K ≤ K') (r : Value × Option Block) (hr : K'.value r.1 ∧ K'.blockArg r.2) :
      Tries Φ K' (go r) Known.request := by
    refine L.tryGo L.height fun top _ => ?_
    refine L.tryGo L.stack fun s hs => ?_
    refine L.tryGo (L.lift (gives_get hs _)) fun receiver hrec => ?_
    refine L.tryGo (L.classOf hrec) fun c _ => ?_
    refine L.tryGo (L.findMethodAt? (by rwa [h.site])) fun f _ => ?_
    cases f with
    | none => exact L.tryGo (L.noMethod _ hrec) fun f hf => L.tryThrow hf
    | some fn => exact L.tryPure ⟨hrec, hr⟩
  have delegated : Tries Φ K1 (delegate ()) Known.request := by
    dsimp only [delegate]
    split
    · exact L.tryBind (L.pushDelegated a hk (h1.blockArg hb)) fun K' r h hr => called K' (h1.trans h) r hr
    · exact called K1 h1 (kw, blk) ⟨hk, h1.blockArg hb⟩
  split
  · refine L.tryGo L.stack fun s hs => ?_
    refine L.tryGo L.height fun top _ => ?_
    refine L.tryGo (L.lift (gives_slice hs _ _)) fun args hargs => ?_
    refine L.tryGo (L.resize _) fun _ _ => ?_
    exact L.tryGo (L.pushSpread hargs) fun _ _ => delegated
  · exact delegated

end Logic

end RubyMachine
