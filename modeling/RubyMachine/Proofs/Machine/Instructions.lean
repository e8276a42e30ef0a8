import RubyMachine.Proofs.Machine.Sends

/-! The instructions in every logic. What an instruction reads from its code is known when the code keeps
to what is known: values that it pushes, and the caches that it names. -/

namespace RubyMachine

/-- The instruction sends `name` and has its method remembered in the cache numbered `cache`. -/
def Site.Sends (s : Site) (name : Ident) (cache : Nat) : Prop :=
  (s.act.seq.code.u32At? (s.pc + 1)).map Ident.mk = some name ∧
    (s.op = .send ∧ (s.act.seq.code.u32At? (s.pc + 12)).map UInt32.toNat = some cache ∨
      (s.op = .optSend ∨ s.op = .optSendN) ∧ (s.act.seq.code.u32At? (s.pc + 11)).map UInt32.toNat = some cache)

/-- What the instruction at a site may do with what it reads from the code. -/
structure Known.admits (K : Known) (s : Site) : Prop where
  act : K.activation s.act
  /-- A value in the code is known. -/
  operand : s.op = .pushVal → ∀ n, s.act.seq.code.u64At? (s.pc + 1) = some n → K.value ⟨n⟩
  /-- A send uses its cache for the name that the cache is for. -/
  send : ∀ name cache, s.Sends name cache → K.site s.act.fn cache name
  const : s.op = .getConst → ∀ name cache, (s.act.seq.code.u32At? (s.pc + 1)).map Ident.mk = some name →
    (s.act.seq.code.u32At? (s.pc + 5)).map UInt32.toNat = some cache → K.constSite s.act.fn cache name
  /-- A definition may be replaced. -/
  changes : 0 < K.changes

namespace Logic

open Known

variable {K : Known} {v : Value} {vs : List Value} {s : Site} {C : Known → Exec Control → Prop}
  {Φ : ∀ {α : Type}, Known → Exec α → (Known → α → Prop) → Prop}

/-- What an instruction leads to is known; `C` is known of the calls that it waits for. -/
def Leads (C : Known → Exec Control → Prop) (K : Known) : Effect → Prop
  | .next | .jump _ => True
  | .leave r => K.result r
  | .wait _ call => C K call

/-- Something that holds of all calls that instructions wait for. -/
structure Calling (C : Known → Exec Control → Prop) : Prop where
  call {K : Known} {fn : FnId} {self kw : Value} {base argc : Int} {blk : Option Block} :
    K.value self → K.value kw → K.blockArg blk → C K (Pure.pure (.call fn self base argc kw blk))
  yield {K : Known} {b : Block} {base argc : Int} : K.block b → C K (Pure.pure (.yield b base argc))
  direct {K : Known} {fn : FnId} {self : Value} : K.value self → C K (Exec.callDirect fn self [])
  operator {K : Known} {name : Ident} {negated : Bool} {lhs rhs : Value} : K.value lhs → K.value rhs →
    C K (Exec.sendOperator name negated lhs rhs)
  negative {K : Known} {v : Value} : K.value v → C K (Exec.send .neg v [] .nil none)

theorem maybe_self {α : Type} (x : Option α) : Maybe (fun a => x = some a) x := by
  cases x <;> trivial

variable (L : Logic Φ)

include L

/-! ## Operands -/

theorem u8 (s : Site) (i : Nat) : Keeps Φ K (s.u8 i) := L.demand (maybe_true _)

theorem u16 (s : Site) (i : Nat) : Keeps Φ K (s.u16 i) := L.demand (maybe_true _)

theorem u32 (s : Site) (i : Nat) :
    Φ K (s.u32 i) (Same K fun n => s.act.seq.code.u32At? (s.pc + i) = some n) := L.demand (maybe_self _)

theorem u64 (s : Site) (i : Nat) :
    Φ K (s.u64 i) (Same K fun n => s.act.seq.code.u64At? (s.pc + i) = some n) := L.demand (maybe_self _)

theorem i32 (s : Site) (i : Nat) : Keeps Φ K (s.i32 i) := L.seq (L.u32 s i) fun _ _ => L.ret trivial

theorem count (s : Site) (i : Nat) :
    Φ K (s.count i) (Same K fun n => (s.act.seq.code.u32At? (s.pc + i)).map UInt32.toNat = some n) :=
  L.seq (L.u32 s i) fun n hn => L.ret (by rw [hn]; rfl)

theorem ident (s : Site) (i : Nat) :
    Φ K (s.ident i) (Same K fun n => (s.act.seq.code.u32At? (s.pc + i)).map Ident.mk = some n) :=
  L.seq (L.u32 s i) fun n hn => L.ret (by rw [hn]; rfl)

theorem fnAt (s : Site) (i : Nat) : Keeps Φ K (s.fn i) := L.seq (L.u32 s i) fun _ _ => L.ret trivial

theorem env (s : Site) : Φ K s.env (Same K K.env) := L.frameEnv _

theorem savePc (s : Site) : Keeps Φ K s.savePc := L.seq (L.env s) fun _ he => L.setPc he _

theorem lexicalClass (s : Site) : Φ K s.lexicalClass (Same K K.cls) := by
  unfold Site.lexicalClass
  extract_lets own
  have owned (m : Option Nat) (hm : Maybe K.cls m) : Φ K (own m) (Same K K.cls) := by
    cases m with
    | some m => exact L.ret hm
    | none =>
      refine L.seq (L.function _) fun f hf => L.ret ?_
      cases h : f.owner with
      | none => exact mem_fixed (by decide)
      | some c => exact hf.owner c h
  split
  · refine L.seq (L.env s) fun e he => ?_
    refine L.seq (L.self he) fun v hv => ?_
    exact L.seq (L.asModule? hv) owned
  · exact owned none trivial

/-! ## Values -/

theorem tryNext {x : Exec Unit} (hx : Keeps Φ K x) : Tries Φ K (do
    x
    return Effect.next) (Leads C) :=
  L.tryGo hx fun _ _ => L.tryPure trivial

theorem tryPushNew {x : Exec Value} (hx : Φ K x Known.value) : Tries Φ K (do
    let v ← x
    Exec.push v
    return Effect.next) (Leads C) :=
  L.tryNew hx fun _ _ _ hv => L.tryNext (L.push hv)

theorem dictFrom (hv : K.value v) (hvs : K.values vs) : Keeps Φ K (Site.dictFrom v vs) := by
  induction vs using Site.dictFrom.induct with
  | case1 k w rest ih =>
    refine L.seq (L.dictInsert hv (hvs k (by simp)) (hvs w (by simp))) fun _ _ => ?_
    exact ih fun x hx => hvs x (by simp [hx])
  | case2 vs h =>
    unfold Site.dictFrom
    split
    · exact absurd rfl (h _ _ _)
    · exact L.ret trivial

theorem create (hs : K.admits s) : Tries Φ K s.create (Leads C) := by
  unfold Site.create
  split
  · exact L.tryGo (L.u64 s 1) fun n hn => L.tryNext (L.push (hs.operand ‹_› n hn))
  · exact L.tryGo (L.u64 s 1) fun n _ => L.tryNext (L.push (K.imm _ (Value.isRef_ofFloatBits n)))
  · exact L.tryNext (L.push nil)
  · refine L.tryGo (L.env s) fun e he => ?_
    exact L.tryGo (L.self he) fun v hv => L.tryNext (L.push hv)
  · -- a literal
    refine L.tryGo (L.count s 1) fun n _ => ?_
    refine L.tryGo (L.demand (maybe_elem (K.consts _ hs.act) n)) fun v hv => ?_
    refine L.tryGo (L.asString? hv) fun t _ => ?_
    cases t with
    | some t => exact L.tryPushNew (L.newString t)
    | none => exact L.tryNext (L.push hv)
  · refine L.tryGo (L.count s 1) fun n _ => ?_
    exact L.tryGo (L.popN _) fun vs hvs => L.tryPushNew (L.newArray hvs)
  · refine L.tryGo (L.count s 1) fun n _ => ?_
    refine L.tryGo (L.popN _) fun vs hvs => ?_
    refine L.tryNew L.newDict fun K' d h hd => ?_
    refine L.tryGo (L.dictFrom hd (h.values hvs)) fun _ _ => ?_
    exact L.tryNext (L.push hd)
  · refine L.tryGo (L.fnAt s 1) fun fn _ => ?_
    exact L.tryPushNew (L.makeProc fn (value_frameAt _))

/-! ## Variables -/

theorem setLocalOf {e : Env} (he : K.env e) (slot : Nat) : Tries Φ K (do
    let v ← Exec.pop
    e.setLocalAt slot v
    return Effect.next) (Leads C) :=
  L.tryGo L.pop fun _ hv => L.tryNext (L.setLocalAt he _ hv)

theorem access (hs : K.admits s) : Tries Φ K s.access (Leads C) := by
  unfold Site.access
  split
  · refine L.tryGo (L.env s) fun e he => ?_
    refine L.tryGo (L.count s 1) fun n _ => ?_
    exact L.tryGo (L.localAt he _) fun v hv => L.tryNext (L.push (value_readable hv))
  · refine L.tryGo (L.env s) fun e he => ?_
    exact L.tryGo (L.count s 1) fun n _ => L.setLocalOf he n
  · refine L.tryGo (L.count s 5) fun depth _ => ?_
    refine L.tryGo (L.outerEnv _ depth) fun e he => ?_
    refine L.tryGo (L.count s 1) fun n _ => ?_
    exact L.tryGo (L.localAt he _) fun v hv => L.tryNext (L.push (value_readable hv))
  · refine L.tryGo (L.count s 5) fun depth _ => ?_
    refine L.tryGo (L.outerEnv _ depth) fun e he => ?_
    exact L.tryGo (L.count s 1) fun n _ => L.setLocalOf he n
  · refine L.tryGo (L.count s 5) fun depth _ => ?_
    refine L.tryGo (L.outerEnv _ depth) fun e he => ?_
    refine L.tryGo (L.count s 1) fun n _ => ?_
    exact L.tryGo (L.localAt he _) fun v _ => L.tryNext (L.push (value_ofBool _))
  · -- a constant through its cache
    refine L.tryGo (L.ident s 1) fun name hname => ?_
    refine L.tryGo (L.count s 5) fun cache hcache => ?_
    refine L.tryGo (L.findConstAt? (hs.const ‹_› name cache hname hcache)) fun r hr => ?_
    cases r with
    | some v => exact L.tryNext (L.push hr)
    | none => exact L.tryGo (L.identName name) fun _ _ => L.tryFailed _
  · refine L.tryGo (L.ident s 1) fun name _ => ?_
    refine L.tryGo (L.findConst? (c := none) trivial name) fun r hr => ?_
    cases r with
    | some v => exact L.tryNext (L.push hr)
    | none => exact L.tryGo (L.identName name) fun _ _ => L.tryFailed _
  · refine L.tryGo (L.lexicalClass s) fun c hc => ?_
    refine L.tryGo (L.ident s 1) fun name _ => ?_
    refine L.tryGo L.pop fun v hv => ?_
    exact L.tryNew (L.setConst hs.changes hc hv) fun _ _ _ _ => L.tryPure trivial
  · refine L.tryGo (L.env s) fun e he => ?_
    refine L.tryGo (L.self he) fun v hv => ?_
    refine L.tryGo (L.ident s 1) fun name _ => ?_
    exact L.tryGo (L.getIvar hv) fun w hw => L.tryNext (L.push hw)
  · refine L.tryGo (L.env s) fun e he => ?_
    refine L.tryGo (L.self he) fun v hv => ?_
    refine L.tryGo (L.ident s 1) fun name _ => ?_
    refine L.tryGo L.pop fun w hw => ?_
    refine L.tryGo (L.setIvar hv hw) fun ok _ => ?_
    split
    · exact L.tryGo (L.inspect hv) fun _ _ => L.tryFailed _
    · exact L.tryPure trivial
  · refine L.tryGo (L.ident s 1) fun name _ => ?_
    exact L.tryGo (L.getGlobal name) fun w hw => L.tryNext (L.push hw)
  · refine L.tryGo (L.ident s 1) fun name _ => ?_
    exact L.tryGo L.pop fun w hw => L.tryNext (L.setGlobal name hw)

/-! ## The stack -/

theorem pushElems {a : Array Value} (ha : ∀ w ∈ a, K.value w) (i n : Nat) : Keeps Φ K (Site.pushElems a i n) := by
  induction n generalizing i with
  | zero => exact L.ret trivial
  | succ n ih => exact L.seq (L.push (value_getD ha nil)) fun _ _ => ih (i + 1)

theorem shuffle (s : Site) : Tries Φ K s.shuffle (Leads C) := by
  unfold Site.shuffle
  split
  · exact L.tryGo L.pop fun _ _ => L.tryPure trivial
  · refine L.tryGo (L.count s 1) fun n _ => ?_
    refine L.tryGo L.height fun top _ => ?_
    refine L.tryGo (L.grow _) fun _ _ => ?_
    exact L.tryNext (L.updateStack fun _ hs => gives_copyWithin hs _ _ _)
  · refine L.tryGo (L.count s 1) fun n _ => ?_
    refine L.tryGo L.pop fun v hv => ?_
    refine L.tryGo (L.asArray? hv) fun r hr => ?_
    refine L.tryNext (L.pushElems (hr.getD fun w hw => ?_) 0 n)
    rw [show w = v by simpa using hw]
    exact hv
  · refine L.tryGo L.pop fun v hv => ?_
    exact L.tryPushNew (L.alloc rfl fun _ => hv)
  · refine L.tryGo (L.count s 1) fun n _ => ?_
    refine L.tryGo L.pop fun v hv => ?_
    refine L.tryGo L.height fun h _ => ?_
    exact L.tryNext (L.updateStack fun _ hs => gives_insert hs hv _)
  · refine L.tryGo (L.count s 1) fun n _ => ?_
    refine L.tryGo (L.seq L.stack fun t ht => L.lift (gives_peek ht n)) fun v hv => ?_
    exact L.tryNext (L.push hv)

/-! ## Sends -/

theorem sendSite (hs : K.admits s) (hop : s.op = .send ∨ s.op = .optSend ∨ s.op = .optSendN) :
    Φ K s.sendSite (Same K fun site => K.site s.act.fn site.cache site.name) := by
  refine L.seq (L.ident s 1) fun name hname => ?_
  refine L.seq (L.u16 s 5) fun argc _ => ?_
  dsimp only
  split
  · refine L.seq (L.u8 s 7) fun _ _ => ?_
    refine L.seq (L.fnAt s 8) fun _ _ => ?_
    exact L.seq (L.count s 12) fun cache hc => L.ret (hs.send name cache ⟨hname, .inl ⟨‹_›, hc⟩⟩)
  · have hop : s.op = .optSend ∨ s.op = .optSendN := hop.resolve_left ‹_›
    refine L.seq (L.fnAt s 7) fun _ _ => ?_
    exact L.seq (L.count s 11) fun cache hc => L.ret (hs.send name cache ⟨hname, .inr ⟨hop, hc⟩⟩)

theorem sendAt (hC : Calling C) (hs : K.admits s) (hop : s.op = .send ∨ s.op = .optSend ∨ s.op = .optSendN) :
    Tries Φ K s.send (Leads C) := by
  refine L.tryGo (L.savePc s) fun _ _ => ?_
  refine L.tryGo (L.sendSite hs hop) fun site hsite => ?_
  refine L.tryBind (L.startSend s.act site hsite) fun K' c _ hc => L.tryPure ?_
  cases c with
  | call => exact hC.call hc.1 hc.2.1 hc.2.2
  | _ => exact hc.elim

theorem yieldAt (hC : Calling C) (s : Site) : Tries Φ K s.yield (Leads C) := by
  refine L.tryGo (L.savePc s) fun _ _ => ?_
  refine L.tryGo (L.count s 1) fun argc _ => ?_
  refine L.tryGo (L.env s) fun e he => ?_
  refine L.tryGo (L.methodBlock? he) fun b hb => ?_
  cases b with
  | none => exact L.tryFail _
  | some b =>
    refine L.tryGo L.height fun h _ => ?_
    refine L.tryGo (L.updateStack fun _ hs => gives_insert hs nil _) fun _ _ => ?_
    exact L.tryPure (hC.yield hb)

/-! ## Definitions -/

theorem defMethod (hs : K.admits s) : Tries Φ K s.defMethod (Leads C) := by
  refine L.tryGo (L.ident s 1) fun name _ => ?_
  refine L.tryGo (L.fnAt s 5) fun fn _ => ?_
  extract_lets define
  have defined (K' : Known) (hk : K'.changes = K.changes) (c : Nat) (hc : K'.cls c) :
      Tries Φ K' (define c) (Leads C) := by
    refine L.tryGo (L.sequence fn) fun _ _ => ?_
    refine L.tryGo (L.setOwner hc) fun _ _ => ?_
    refine L.tryNew (L.defineMethod (hk ▸ hs.changes) hc) fun K'' _ _ _ => ?_
    exact L.tryNext (L.push (K''.imm _ (Value.isRef_ofSymbol name)))
  split
  · refine L.tryGo (L.env s) fun e he => ?_
    refine L.tryGo (L.self he) fun v hv => ?_
    refine L.tryGo (L.asModule? hv) fun r hr => ?_
    cases r with
    | some c => exact L.tryNew (L.singletonClass c hr) fun K' c' _ h => defined K' h.2 c' h.1
    | none => exact L.tryGo (L.inspect hv) fun _ _ => L.tryFailed _
  · exact L.tryGo (L.lexicalClass s) (defined K rfl)

theorem superclass (hv : K.value v) : Tries Φ K (Site.superclass v) (Same K (Maybe K.cls)) := by
  unfold Site.superclass
  split
  · exact L.tryPure ⟨rfl, trivial⟩
  refine L.tryGo (L.asModule? hv) fun r hr => ?_
  cases r with
  | none => exact L.tryFail _
  | some c =>
    refine L.tryGo (L.module hr) fun e _ => ?_
    exact L.guard fun _ => L.tryPure ⟨rfl, hr⟩

theorem defClass (hC : Calling C) (s : Site) : Tries Φ K s.defClass (Leads C) := by
  refine L.tryGo (L.savePc s) fun _ _ => ?_
  refine L.tryGo (L.u8 s 1) fun flag _ => ?_
  refine L.tryGo (L.ident s 2) fun name _ => ?_
  refine L.tryGo (L.fnAt s 6) fun body _ => ?_
  refine L.tryGo L.pop fun v hv => ?_
  refine L.trySeq (L.superclass hv) fun super hsuper => ?_
  refine L.tryGo (L.lexicalClass s) fun parent hp => ?_
  refine L.tryNew (L.defineModule hp hsuper name _) fun K' c _ hc => ?_
  refine L.tryGo (L.module hc.1) fun e he => ?_
  dsimp only
  split
  · exact L.tryGo (L.className c) fun _ _ => L.tryFailed _
  refine L.tryGo (L.sequence body) fun _ _ => ?_
  refine L.tryGo (L.setOwner hc.1) fun _ _ => ?_
  exact L.tryPure (hC.direct he.self)

/-! ## Control -/

theorem jump (s : Site) (hb : s.op ≠ .jmpBack) : Tries Φ K s.jump (Leads C) := by
  unfold Site.jump
  split
  · exact L.tryGo (L.i32 s 1) fun _ _ => L.tryPure trivial
  · exact absurd ‹_› hb
  · refine L.tryGo L.pop fun v _ => ?_
    split
    · exact L.tryPure trivial
    · exact L.tryGo (L.i32 s 1) fun _ _ => L.tryPure trivial
  · refine L.tryGo L.pop fun v _ => ?_
    split
    · exact L.tryGo (L.i32 s 1) fun _ _ => L.tryPure trivial
    · exact L.tryPure trivial

theorem exit (s : Site) : Tries Φ K s.exit (Leads C) := by
  refine L.tryGo L.pop fun v hv => ?_
  extract_lets inBlock
  split
  · split
    · refine L.tryGo (L.env s) fun e he => ?_
      exact L.tryGo (L.outer he) fun _ _ => L.tryPure hv
    · exact L.tryPure hv
  · refine L.tryGo (L.isLambdaFrame _) fun lambda _ => ?_
    split
    · refine L.tryGo (L.env s) fun e he => ?_
      exact L.tryGo (L.method he) fun _ _ => L.tryPure hv
    · exact L.tryPure hv
  · exact L.tryPure hv

theorem throwValue : Tries Φ K Site.throwValue (Leads C) := by
  refine L.tryGo L.pop fun v hv => ?_
  refine L.tryGo (L.deref? hv) fun o ho => ?_
  split
  · exact L.tryThrow ho
  · exact L.tryGo (L.inspect hv) fun _ _ => L.tryFail _

/-! ## Operators -/

theorem apply (hC : Calling C) (op : Operator) {lhs rhs : Value} (hl : K.value lhs) (hr : K.value rhs) (p : Pending)
    {done : Value → Exec Effect} (hd : ∀ v, K.value v → Φ K (done v) (Leads C)) :
    Tries Φ K (Site.apply op lhs rhs p done) (Leads C) := by
  refine L.tryGo (L.operation op hl hr) fun r hres => ?_
  split
  · exact L.tryLift (hd _ hres)
  · exact L.tryThrow hres
  · exact L.tryPure (hC.operator hl hr)

theorem pushResult (hv : K.value v) : Φ K (Site.pushResult v) (Leads C) :=
  L.seq (L.push hv) fun _ _ => L.pure trivial

theorem applyPush (hC : Calling C) (op : Operator) {lhs rhs : Value} (hl : K.value lhs) (hr : K.value rhs) :
    Tries Φ K (Site.applyPush op lhs rhs) (Leads C) :=
  L.apply hC op hl hr _ fun _ hv => L.pushResult hv

theorem applyBranch (hC : Calling C) (s : Site) (op : Operator) {lhs rhs : Value} (hl : K.value lhs) (hr : K.value rhs) (i : Nat) :
    Tries Φ K (s.applyBranch op lhs rhs i) (Leads C) := by
  refine L.apply hC op hl hr _ fun v _ => ?_
  split
  · exact L.pure trivial
  · exact L.seq (L.i32 s i) fun _ _ => L.pure trivial

theorem negative (hC : Calling C) : Tries Φ K Site.negative (Leads C) := by
  refine L.tryGo L.pop fun v hv => ?_
  split
  · have hn := result_negate (K := K) (.ofInt v.toInt)
    split
    · rename_i h
      rw [h] at hn
      exact L.tryLift (L.pushResult hn)
    · rename_i h
      rw [h] at hn
      exact L.tryThrow hn
  split
  · exact L.tryLift (L.pushResult (value_ofFloat _))
  · exact L.tryPure (hC.negative hv)

theorem complement : Tries Φ K Site.complement (Leads C) := by
  refine L.tryGo L.pop fun v _ => ?_
  exact L.guard fun _ => L.tryLift (L.pushResult (value_ofInt _))

theorem immediate (s : Site) : Φ K s.immediate (Same K K.value) :=
  L.seq (L.i32 s 1) fun _ _ => L.ret (value_ofInt _)

theorem operator (hC : Calling C) (s : Site) : Tries Φ K s.operator (Leads C) := by
  unfold Site.operator
  split
  · exact L.tryGo L.pop fun _ _ => L.tryLift (L.pushResult (value_ofBool _))
  · exact L.negative hC
  · exact L.complement
  split
  · refine L.tryGo L.pop fun rhs hr => ?_
    exact L.tryGo L.pop fun lhs hl => L.applyPush hC _ hl hr
  · refine L.tryGo (L.immediate s) fun rhs hr => ?_
    exact L.tryGo L.pop fun lhs hl => L.applyPush hC _ hl hr
  · refine L.tryGo L.pop fun rhs hr => ?_
    exact L.tryGo L.pop fun lhs hl => L.applyBranch hC s _ hl hr _
  · refine L.tryGo (L.immediate s) fun rhs hr => ?_
    exact L.tryGo L.pop fun lhs hl => L.applyBranch hC s _ hl hr _
  · exact L.tryFail _

theorem perform (hC : Calling C) (hs : K.admits s) (hb : s.op ≠ .jmpBack) : Tries Φ K s.perform (Leads C) := by
  unfold Site.perform
  cases ho : s.op with
  | pushVal | pushFlonum | pushNil | pushSelf | constVal | createArray | createHash | createProc => exact L.create hs
  | getLocal | setLocal | getDynLocal | setDynLocal | checkLocal | getConst | getConstTop | setConst | getIvar | setIvar
  | getGvar | setGvar => exact L.access hs
  | pop | dup | take | splat | sinkN | topN => exact L.shuffle s
  | send | optSend | optSendN => exact L.sendAt hC hs (by simp [ho])
  | yield => exact L.yieldAt hC s
  | defMethod | defSingletonMethod => exact L.defMethod hs
  | defClass => exact L.defClass hC s
  | jmp | jmpBack | jmpIfFalse | jmpIfTrue => exact L.jump s hb
  | ret | brk | methodRet => exact L.exit s
  | throw => exact L.throwValue
  | _ => exact L.operator hC s

end Logic

/-- What is known of calls in a logic of calls. -/
theorem CallLogic.calling {Φ : ∀ {α : Type}, Known → Exec α → (Known → α → Prop) → Prop} (L : CallLogic Φ) :
    Logic.Calling fun K x => Φ K x Known.control where
  call hv hk hb := L.pure ⟨hv, hk, hb⟩
  yield hb := L.pure hb
  direct hv := L.ofSame (L.callDirect _ hv Known.values_nil) fun _ h => h
  operator hl hr := L.ofSame (L.sendOperator _ _ hl hr) fun _ h => h
  negative hv := L.ofSame (L.send _ hv Known.values_nil Known.nil trivial) fun _ h => h

end RubyMachine
