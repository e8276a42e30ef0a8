import RubyMachine.Proofs.Machine.Invocation

/-! The builtin methods in every logic. Most come to their value at once; the others call back, or come to
another thread. -/

namespace RubyMachine

/-- Whether a builtin may call code, or come to another thread. -/
def Builtin.calls : Builtin → Bool
  | .differs | .caseEqual | .puts | .loop | .construct | .operator _ | .times | .stringAppend | .arrayEqual
  | .arrayEach | .arrayMap | .procCall | .fiberYield | .fiberResume | .enumNext | .enumRewind | .enumEach
  | .enumMap | .enumWithIndex | .host _ => true
  | _ => false

/-- What comes next is an outcome, and it is known. -/
def Known.answer (K : Known) : Control → Prop
  | .deliver r => K.result r
  | _ => False

theorem Known.control_of_answer {K : Known} {c : Control} (hc : K.answer c) : K.control c := by
  cases c with
  | deliver r => exact hc
  | _ => exact hc.elim

namespace Logic

open Known

variable {K : Known} {v : Value} {vs : List Value} {blk : Option Block}

theorem value_arg (hvs : K.values vs) (i : Nat) : K.value (vs.getD i .nil) := by
  rw [List.getD_eq_getElem?_getD]
  cases h : vs[i]? with
  | none => exact nil
  | some w => exact hvs w (List.mem_of_getElem? h)

theorem value_elem {a : Array Value} (ha : ∀ w ∈ a, K.value w) {i : Nat} {w : Value} (h : a[i]? = some w) :
    K.value w := ha w (Array.mem_of_getElem? h)

theorem maybe_elem {a : Array Value} (ha : ∀ w ∈ a, K.value w) (i : Nat) : Maybe K.value a[i]? := by
  cases h : a[i]? with
  | none => trivial
  | some w => exact value_elem ha h

variable {Φ : ∀ {α : Type}, Known → Exec α → (Known → α → Prop) → Prop} (L : Logic Φ)

include L

/-! ## Elements -/

/-- Changes the elements of an array. -/
theorem updateArray (hv : K.value v) {g : Array Value → Array Value}
    (hg : ∀ a, (∀ w ∈ a, K.value w) → ∀ w ∈ g a, K.value w) :
    Keeps Φ K (Exec.update v fun
      | .array elems => .array (g elems)
      | o => o) := by
  refine L.update hv fun o ho => ?_
  cases o with
  | array a => exact ⟨.array a (g a), hg a ho⟩
  | _ => exact ⟨.same _, ho⟩

theorem appendElem {array : Value} (ha : K.value array) (hv : K.value v) : Keeps Φ K (Exec.appendElem array v) := by
  refine L.updateArray ha fun a ha w hw => ?_
  rcases Array.mem_push.mp hw with hw | rfl
  · exact ha w hw
  · exact hv

/-! ## Texts -/

theorem convertedText {converted : Value} (hv : K.value v) (hc : K.value converted) :
    Keeps Φ K (Exec.convertedText v converted) := by
  refine L.seq (L.asString? hc) fun s _ => ?_
  cases s with
  | some s => exact L.ret trivial
  | none => exact L.inspect hv

theorem appendText (hv : K.value v) (s : String) : Φ K (Exec.appendText v s) (Same K K.answer) := by
  refine L.seq (L.stringOf hv) fun _ _ => ?_
  refine L.seq (L.update hv fun o ho => ?_) fun _ _ => L.ret hv
  cases o with
  | string t => exact ⟨.string t (t ++ s), trivial⟩
  | _ => exact ⟨.same _, ho⟩

/-! ## Arguments -/

theorem fixnumOf (v : Value) : Keeps Φ K (Exec.fixnumOf v) := L.lift (gives_asFixnum v)

theorem floatOf (v : Value) : Keeps Φ K (Exec.floatOf v) := L.lift (gives_asFloat v)

theorem symbolOf (v : Value) : Keeps Φ K (Exec.symbolOf v) := L.lift (gives_asSymbol v)

theorem symbolArg (hv : K.value v) : Tries Φ K (Exec.symbolArg v) (Same K fun _ => True) := by
  unfold Exec.symbolArg
  split
  · exact L.tryPure ⟨rfl, trivial⟩
  · exact L.tryGo (L.inspect hv) fun _ _ => L.tryFail _

omit L in
theorem value_elementAt? {a : Array Value} (ha : ∀ w ∈ a, K.value w) (i : Int) :
    Maybe K.value (Exec.elementAt? a i) := by
  unfold Exec.elementAt?
  extract_lets i
  split
  · trivial
  · exact maybe_elem ha _

/-- Gives a new value. -/
theorem tryNewValue {x : Exec Value} (hx : Φ K x Known.value) :
    Tries Φ K (do
      let v ← x
      return .value v) Known.answer :=
  L.tryNew hx fun _ _ _ hv => L.tryPure hv

theorem enumeratorOver (hv : K.value v) (hvs : K.values vs) :
    Tries Φ K (Exec.enumeratorOver v vs) Known.answer := by
  cases vs with
  | nil => exact L.tryNewValue (L.newEnumerator _ hv values_nil)
  | cons m rest =>
    refine L.trySeq (L.symbolArg (hvs m (by simp))) fun method _ => ?_
    exact L.tryNewValue (L.newEnumerator _ hv fun w hw => hvs w (by simp [hw]))

/-! ## Bodies by family -/

theorem runObject (b : Builtin) (hc : b.calls = false) (hv : K.value v) (hvs : K.values vs) (hb : K.blockArg blk) :
    Tries Φ K (b.runObject v vs blk) Known.answer := by
  unfold Builtin.runObject
  extract_lets arg
  have harg (i : Nat) : K.value (arg i) := value_arg hvs i
  split
  · exact L.tryPure (value_ofBool _)
  · cases hc
  · cases hc
  · exact L.tryPure (value_ofBool _)
  · exact L.tryPure (value_ofBool _)
  · -- the class of the receiver
    refine L.tryGo (L.classOf hv) fun c hc => ?_
    refine L.tryLook (fun _ _ => rfl) fun m hm => ?_
    exact L.tryPure (hm.classes _ (cls_visible hm hc)).self
  · refine L.tryGo (L.inspect hv) fun s _ => ?_
    exact L.tryNewValue (L.newString s)
  · refine L.trySeq (L.tryForM fun w hw => ?_) fun _ _ => ?_
    · exact L.tryGo (L.inspect (hvs w hw)) fun s _ => L.tryLift (L.write _)
    · exact L.tryNewValue (L.pack hvs)
  · cases hc
  · -- what is raised
    refine L.tryGo (L.deref? (harg 0)) fun o ho => ?_
    split
    · exact L.tryThrow ho
    · exact L.tryFail _
    · split
      · exact L.tryFail _
      · exact L.tryFail _
  · exact L.tryGo L.currentBlock? fun _ _ => L.tryPure (value_ofBool _)
  · split
    · exact L.tryFail _
    · exact L.tryNewValue (L.blockToProc hb)
  · -- a lambda
    refine L.guard fun _ => ?_
    refine L.tryNew (L.blockToProc hb) fun K' w h hw => ?_
    split
    · refine L.tryGo (L.update hw fun o ho => ?_) fun _ _ => L.tryPure hw
      cases o with
      | proc p => exact ⟨.proc p, ho⟩
      | _ => exact ⟨.same _, ho⟩
    · exact L.tryPure hw
  · cases hc
  · exact L.enumeratorOver hv hvs
  · exact L.tryBind L.newBinding fun _ _ _ hv => L.tryPure hv
  · refine L.trySeq (L.symbolArg (harg 0)) fun name _ => ?_
    exact L.tryGo (L.getIvar hv) fun w hw => L.tryPure hw
  · refine L.trySeq (L.symbolArg (harg 0)) fun name _ => ?_
    refine L.tryGo (L.setIvar hv (harg 1)) fun ok _ => ?_
    split
    · exact L.tryPure (harg 1)
    · exact L.tryGo (L.inspect hv) fun _ _ => L.tryFail _
  · exact L.tryNewValue (L.newString "")

theorem expectModule (hv : K.value v) {α : Type} {R : Known → α → Prop} :
    Tries Φ K (do Attempt.fail (.expectedModule (← Exec.className (← Exec.classOf v))) : Attempt α) R := by
  refine L.tryGo (L.classOf hv) fun c _ => ?_
  exact L.tryGo (L.className c) fun _ _ => L.tryFail _

/-- Mixing modules in one after the other takes as many changes. -/
theorem mixInAll (hv : K.value v) (hvs : K.values vs) (hn : vs.length ≤ K.changes) :
    Tries Φ K (vs.forM fun w => do
      match ← Exec.asModule? w with
      | some m =>
        if (← Exec.module m).isModule then Exec.mixIn (← Exec.moduleOf v) m
        else Attempt.fail (.expectedModule (← Exec.className (← Exec.classOf w)))
      | none => Attempt.fail (.expectedModule (← Exec.className (← Exec.classOf w)))) fun _ _ => True := by
  induction vs generalizing K with
  | nil => exact L.tryPure trivial
  | cons w rest ih =>
    have hw := hvs w (by simp)
    have mixed : Tries Φ K (do
        match ← Exec.asModule? w with
        | some m =>
          if (← Exec.module m).isModule then Exec.mixIn (← Exec.moduleOf v) m
          else Attempt.fail (.expectedModule (← Exec.className (← Exec.classOf w)))
        | none => Attempt.fail (.expectedModule (← Exec.className (← Exec.classOf w))))
        fun K' _ => K' = K.spend := by
      refine L.tryGo (L.asModule? hw) fun r hr => ?_
      cases r with
      | none => exact L.expectModule hw
      | some c =>
        refine L.tryGo (L.module hr) fun e _ => ?_
        split
        · refine L.tryGo (L.moduleOf hv) fun s hs => L.tryLift (L.mixIn ?_ hs hr)
          exact Nat.lt_of_lt_of_le (Nat.succ_pos _) hn
        · exact L.expectModule hw
    refine L.tryBind mixed fun K' _ h hK => ?_
    refine ih (h.value hv) (fun x hx => h.value (hvs x (by simp [hx]))) ?_
    rw [hK]
    exact Nat.le_sub_of_add_le hn

theorem runModuleName (hv : K.value v) : Tries Φ K (Builtin.moduleName.runModule v vs blk) Known.answer := by
  refine L.tryGo (L.moduleOf hv) fun c _ => ?_
  exact L.tryGo (L.className c) fun s _ => L.tryNewValue (L.newString s)

theorem runMixIn (hv : K.value v) (hvs : K.values vs) (hn : vs.length ≤ K.changes) :
    Tries Φ K (Builtin.mixIn.runModule v vs blk) Known.answer :=
  L.tryBind (L.mixInAll hv hvs hn) fun _ _ h _ => L.tryPure (h.value hv)

theorem runAttributes (reader writer : Bool) (hv : K.value v) (hvs : K.values vs) :
    Tries Φ K ((Builtin.attributes reader writer).runModule v vs blk) Known.answer := by
  refine L.trySeq (L.tryForM fun w hw => ?_) fun _ _ => L.tryPure nil
  refine L.trySeq (L.symbolArg (hvs w hw)) fun name _ => ?_
  refine L.tryGo (L.identName name) fun s _ => ?_
  exact L.tryGo (L.moduleOf hv) fun c hc => L.tryLift (L.defineAttr hc s _ _)

theorem runAncestors (hv : K.value v) : Tries Φ K (Builtin.ancestors.runModule v vs blk) Known.answer := by
  refine L.tryLook (fun _ _ => rfl) fun m hm => ?_
  refine L.tryGo (L.asModule? hv) fun r hr => ?_
  refine L.tryNewValue (L.newArray fun w hw => ?_)
  obtain ⟨c, hc, rfl⟩ := List.mem_map.mp hw
  have hmissing : K.cls ClassTable.missing := K.fixed _ (.inr rfl)
  exact (hm.classes c (cls_ancestors hm (hr.getD hmissing) c hc)).self

theorem runNumber (b : Builtin) (hc : b.calls = false) (hv : K.value v) :
    Tries Φ K (b.runNumber v vs blk) Known.answer := by
  unfold Builtin.runNumber
  split
  · cases hc
  · split
    · exact L.tryPure (value_ofFloat _)
    · exact L.tryGo (L.fixnumOf v) fun n _ => L.tryPure (result_negate _)
  · exact L.tryGo (L.fixnumOf v) fun n _ => L.tryNewValue (L.newString _)
  · exact L.tryGo (L.fixnumOf v) fun n _ => L.tryPure (value_ofFloat _)
  · cases hc
  · exact L.tryGo (L.inspect hv) fun s _ => L.tryNewValue (L.newString s)
  · refine L.tryGo (L.floatOf v) fun bits _ => ?_
    dsimp only
    split
    · exact L.tryGo (L.inspect hv) fun _ _ => L.tryFailed _
    split
    · exact L.tryGo (L.inspect hv) fun _ _ => L.tryFailed _
    · exact L.tryPure (result_fixnum _)

theorem runText (b : Builtin) (hc : b.calls = false) (hv : K.value v) (hvs : K.values vs) :
    Tries Φ K (b.runText v vs) Known.answer := by
  unfold Builtin.runText
  have ho := value_arg hvs 0
  extract_lets other
  split
  · exact L.tryPure hv
  · refine L.tryGo (L.asString? ho) fun s _ => ?_
    split
    · exact L.tryGo (L.stringOf hv) fun _ _ => L.tryPure (value_ofBool _)
    · exact L.tryPure (K.imm _ (by decide))
  · refine L.tryGo (L.asString? ho) fun s _ => ?_
    split
    · exact L.tryGo (L.stringOf hv) fun _ _ => L.tryNewValue (L.newString _)
    · refine L.tryGo (L.classOf ho) fun c _ => ?_
      exact L.tryGo (L.className c) fun _ _ => L.tryFail _
  · cases hc
  · exact L.tryGo (L.stringOf hv) fun _ _ => L.tryPure (value_ofInt _)
  · refine L.tryGo (L.stringOf hv) fun s _ => ?_
    exact L.tryGo (L.intern s) fun i _ => L.tryPure (K.imm _ (Value.isRef_ofSymbol i))
  · refine L.tryGo (L.symbolOf v) fun i _ => ?_
    exact L.tryGo (L.identName i) fun s _ => L.tryNewValue (L.newString s)
  · refine L.tryGo (L.symbolOf v) fun i _ => ?_
    exact L.tryNewValue (L.blockToProc trivial)

omit L in
theorem value_setSlot {a : Array Value} (ha : ∀ w ∈ a, K.value w) (i : Nat) (hv : K.value v) :
    ∀ w ∈ Object.setSlot a i v, K.value w := by
  intro w hw
  unfold Object.setSlot at hw
  split at hw
  · rcases Array.mem_or_eq_of_mem_setIfInBounds hw with h | rfl
    · exact ha w h
    · exact hv
  · rcases Array.mem_push.mp hw with hw | rfl
    · rcases Array.mem_append.mp hw with hw | hw
      · exact ha w hw
      · rw [(Array.mem_replicate.mp hw).2]
        exact nil
    · exact hv

theorem runArraySize (hv : K.value v) : Tries Φ K (Builtin.arraySize.runArray v vs blk) Known.answer :=
  L.tryGo (L.arrayOf hv) fun _ _ => L.tryPure (value_ofInt _)

theorem runArrayGet (hv : K.value v) : Tries Φ K (Builtin.arrayGet.runArray v vs blk) Known.answer := by
  unfold Builtin.runArray
  dsimp only
  refine L.guard fun _ => ?_
  refine L.tryGo (L.arrayOf hv) fun a ha => ?_
  exact L.tryPure ((value_elementAt? ha _).getD nil)

theorem runArraySet (hv : K.value v) (hvs : K.values vs) :
    Tries Φ K (Builtin.arraySet.runArray v vs blk) Known.answer := by
  unfold Builtin.runArray
  dsimp only
  refine L.guard fun _ => ?_
  refine L.tryGo (L.arrayOf hv) fun a ha => ?_
  refine L.guard fun _ => ?_
  refine L.tryGo (L.updateArray hv fun a ha => value_setSlot ha _ (value_arg hvs 1)) fun _ _ => ?_
  exact L.tryPure (value_arg hvs 1)

theorem runArrayPush (hv : K.value v) (hvs : K.values vs) :
    Tries Φ K (Builtin.arrayPush.runArray v vs blk) Known.answer := by
  refine L.tryGo (L.arrayOf hv) fun _ _ => ?_
  refine L.tryGo (L.updateArray hv fun a ha w hw => ?_) fun _ _ => L.tryPure hv
  rcases Array.mem_append.mp hw with hw | hw
  · exact ha w hw
  · exact hvs w (by simpa using hw)

theorem runArrayFirst (hv : K.value v) : Tries Φ K (Builtin.arrayFirst.runArray v vs blk) Known.answer :=
  L.tryGo (L.arrayOf hv) fun _ ha => L.tryPure (value_getD ha nil)

theorem runDict (b : Builtin) (hv : K.value v) (hvs : K.values vs) : Tries Φ K (b.runDict v vs) Known.answer := by
  unfold Builtin.runDict
  have hkey := value_arg hvs 0
  extract_lets key
  split
  · refine L.tryGo (L.dictKey hkey) fun id _ => ?_
    exact L.tryGo (L.dictOf hv) fun d hd => L.tryPure ((value_find? hd id).getD nil)
  · refine L.tryGo (L.dictKey hkey) fun _ _ => ?_
    refine L.tryGo (L.dictOf hv) fun _ _ => ?_
    have hw := value_arg hvs 1
    exact L.tryGo (L.dictInsert hv hkey hw) fun _ _ => L.tryPure hw
  · exact L.tryGo (L.dictOf hv) fun _ _ => L.tryPure (value_ofInt _)
  · refine L.tryGo (L.dictKey hkey) fun _ _ => ?_
    exact L.tryGo (L.dictOf hv) fun _ _ => L.tryPure (value_ofBool _)
  · refine L.tryGo (L.dictOf hv) fun d hd => ?_
    refine L.tryNewValue (L.newArray fun w hw => ?_)
    obtain ⟨e, he, rfl⟩ := List.mem_map.mp hw
    exact (hd e (Array.mem_toList_iff.mp he)).1

omit L in
theorem value_readable (hv : K.value v) : K.value (Builtin.readable v) := by
  unfold Builtin.readable
  split
  · exact nil
  · exact hv

theorem runClosure (b : Builtin) (hc : b.calls = false) (hv : K.value v) (hvs : K.values vs) :
    Tries Φ K (b.runClosure v vs) Known.answer := by
  unfold Builtin.runClosure
  extract_lets arg
  have harg (i : Nat) : K.value (arg i) := value_arg hvs i
  split
  · cases hc
  · exact L.tryGo (L.procOf hv) fun _ _ => L.tryPure (value_ofBool _)
  · refine L.tryGo (L.procOf hv) fun p hp => ?_
    exact L.guard fun _ => L.tryPure hp.2
  · refine L.tryGo (L.localNames hv) fun names _ => ?_
    refine L.tryNewValue (L.newArray fun w hw => ?_)
    obtain ⟨i, _, rfl⟩ := List.mem_map.mp hw
    exact K.imm _ (Value.isRef_ofSymbol i)
  · refine L.tryGo (L.asScope hv) fun _ _ => ?_
    exact L.tryGo (L.self (e := .heap v) hv) fun w hw => L.tryPure hw
  · refine L.trySeq (L.findLocal hv (harg 0)) fun r hr => ?_
    refine L.tryGo (L.localAt (e := .heap r.1) hr _) fun w hw => ?_
    exact L.tryPure (value_readable hw)
  · refine L.trySeq (L.findLocal hv (harg 0)) fun r hr => ?_
    refine L.tryGo (L.setLocalAt (e := .heap r.1) hr _ (harg 1)) fun _ _ => ?_
    exact L.tryPure (harg 1)
  · exact L.tryNew (L.hasLocal hv (harg 0)) fun _ _ _ _ => L.tryPure (value_ofBool _)

theorem runFiber (b : Builtin) (hc : b.calls = false) (hv : K.value v) (hb : K.blockArg blk) :
    Tries Φ K (b.runFiber v vs blk) Known.answer := by
  unfold Builtin.runFiber
  split
  · refine L.guard fun _ => ?_
    refine L.tryNew (L.blockToProc hb) fun K' p _ hp => ?_
    have hi : Maybe K'.iteration none := trivial
    exact L.tryNewValue (L.newFiber hp hi)
  · cases hc
  · cases hc
  · refine L.tryGo (L.fiberOf hv) fun id hid => ?_
    exact L.tryFiber hid (fun _ _ => rfl) fun _ _ => L.tryPure (value_ofBool _)

theorem runEnumerator (b : Builtin) (hc : b.calls = false) (hv : K.value v) (hvs : K.values vs) :
    Tries Φ K (b.runEnumerator v vs blk) Known.answer := by
  unfold Builtin.runEnumerator
  split
  · exact L.enumeratorOver (value_arg hvs 0) fun w hw => hvs w (List.mem_of_mem_tail hw)
  any_goals cases hc
  refine L.tryGo (L.enumeratorOf hv) fun _ _ => ?_
  exact L.tryGo (L.inspect hv) fun s _ => L.tryNewValue (L.newString s)

theorem setCollector (on : Bool) : Φ K (Builtin.setCollector on) (Same K K.value) := by
  refine L.look (fun _ _ => rfl) fun m _ => ?_
  exact L.seq L.setEnabled fun _ _ => L.ret (value_ofBool _)

theorem runCollector (b : Builtin) (hc : b ≠ .collect) : Tries Φ K b.runCollector Known.answer := by
  unfold Builtin.runCollector
  split
  · exact absurd rfl hc
  · exact L.tryLook (fun _ _ => rfl) fun _ _ => L.tryPure (result_fixnum _)
  · exact L.tryGo (L.setCollector true) fun _ hv => L.tryPure hv
  · exact L.tryGo (L.setCollector false) fun _ hv => L.tryPure hv
  · refine L.tryLook (fun _ _ => rfl) fun m _ => ?_
    refine L.tryNew L.newDict fun K' d _ hd => ?_
    refine L.trySeq (L.tryForM fun x _ => ?_) fun _ _ => L.tryPure hd
    refine L.tryGo (L.intern _) fun i _ => ?_
    exact L.tryLift (L.dictInsert hd (K'.imm _ (Value.isRef_ofSymbol i)) (value_ofInt _))

theorem runPlain (b : Builtin) (hc : b.calls = false) (hg : b ≠ .collect) (hv : K.value v) (hvs : K.values vs)
    (hb : K.blockArg blk) (hn : vs.length ≤ K.changes) : Tries Φ K (b.run v vs blk) Known.answer := by
  unfold Builtin.run
  cases b with
  | differs | caseEqual | puts | loop | construct | operator | times | stringAppend | arrayEqual | arrayEach | arrayMap
  | procCall | fiberYield | fiberResume | enumNext | enumRewind | enumEach | enumMap | enumWithIndex | host => cases hc
  | identical | negation | isNil | classOf | inspect | inspectAll | raise | blockGiven | makeProc | makeLambda | toEnum
  | binding | ivarGet | ivarSet | emptyText => exact L.runObject _ hc hv hvs hb
  | moduleName => exact L.runModuleName hv
  | mixIn => exact L.runMixIn hv hvs hn
  | attributes reader writer => exact L.runAttributes reader writer hv hvs
  | ancestors => exact L.runAncestors hv
  | negative | integerText | toFloat | floatText | toInteger => exact L.runNumber _ hc hv
  | itself | stringEqual | stringConcat | stringSize | toSymbol | symbolText | symbolProc => exact L.runText _ hc hv hvs
  | arraySize => exact L.runArraySize hv
  | arrayGet => exact L.runArrayGet hv
  | arraySet => exact L.runArraySet hv hvs
  | arrayPush => exact L.runArrayPush hv hvs
  | arrayFirst => exact L.runArrayFirst hv
  | dictGet | dictSet | dictSize | dictHasKey | dictKeys => exact L.runDict _ hv hvs
  | isLambda | procBinding | localNames | receiver | localGet | localSet | localDefined => exact L.runClosure _ hc hv hvs
  | newFiber | fiberAlive => exact L.runFiber _ hc hv hb
  | newEnumerator | enumText => exact L.runEnumerator _ hc hv hvs
  | collect | collections | enableCollector | disableCollector | heapStats => exact L.runCollector _ hg

end Logic

namespace CallLogic

open Known Logic

variable {K : Known} {v : Value} {vs : List Value} {blk : Option Block}
  {Φ : ∀ {α : Type}, Known → Exec α → (Known → α → Prop) → Prop} (L : CallLogic Φ)

include L

/-! ## Iterations -/

theorem callWith {b : Block} (hb : K.block b) {k : Kont} (hk : K.kont k) (hl : k.isLast = false) (hvs : K.values vs) :
    Φ K (do
      Exec.pushKont k
      Exec.callBlock (some b) vs) (Same K K.control) :=
  L.seq (L.pushKont hk hl) fun _ _ => L.callBlock hb hvs

theorem eachFrom {b : Block} (hv : K.value v) (hb : K.block b) (i : Nat) :
    Φ K (Exec.eachFrom v b i) (Same K K.control) := by
  refine L.seq (L.arrayOf hv) fun a ha => ?_
  split
  · exact L.callWith hb ⟨hv, hb⟩ rfl (values_cons (value_elem ha ‹_›) values_nil)
  · exact L.ret hv

theorem mapFrom {b : Block} {out : Value} (hv : K.value v) (hb : K.block b) (ho : K.value out) (i : Nat) :
    Φ K (Exec.mapFrom v b out i) (Same K K.control) := by
  refine L.seq (L.arrayOf hv) fun a ha => ?_
  split
  · exact L.callWith hb ⟨hv, hb, ho⟩ rfl (values_cons (value_elem ha ‹_›) values_nil)
  · exact L.seq L.release fun _ _ => L.ret ho

theorem timesFrom {b : Block} (count i : Int) (hv : K.value v) (hb : K.block b) :
    Φ K (Exec.timesFrom count i v b) (Same K K.control) := by
  unfold Exec.timesFrom
  split
  · exact L.callWith hb ⟨hv, hb⟩ rfl (values_cons (value_ofInt i) values_nil)
  · exact L.ret hv

theorem loopAgain {b : Block} (hb : K.block b) : Φ K (Exec.loopAgain b) (Same K K.control) :=
  L.callWith hb hb rfl values_nil

theorem equalFrom {other : Value} (hv : K.value v) (ho : K.value other) (n i : Nat) :
    Φ K (Exec.equalFrom v other n i) (Same K K.control) := by
  induction n generalizing i with
  | zero => exact L.ret (K.imm _ (by decide))
  | succ n ih =>
    refine L.seq (L.arrayOf hv) fun a ha => ?_
    refine L.seq (L.demand (maybe_elem ha i)) fun x hx => ?_
    refine L.seq (L.arrayOf ho) fun b hb => ?_
    refine L.seq (L.demand (maybe_elem hb i)) fun y hy => ?_
    refine L.seq (L.operation .eq hx hy) fun r hr => ?_
    split
    · split
      · exact ih (i + 1)
      · exact L.ret (K.imm _ (by decide))
    · exact L.ret hr
    · refine L.seq (L.pushKont ⟨hv, ho⟩ rfl) fun _ _ => ?_
      exact L.sendOperator _ _ hx hy

theorem putsAll (hvs : K.values vs) : Φ K (Exec.putsAll vs) (Same K K.control) := by
  induction vs with
  | nil => exact L.ret nil
  | cons v rest ih =>
    have hv := hvs v (by simp)
    have hrest : K.values rest := fun w hw => hvs w (by simp [hw])
    refine L.seq (L.asString? hv) fun s _ => ?_
    cases s with
    | some s => exact L.seq (L.write _) fun _ _ => ih hrest
    | none =>
      refine L.seq (L.pushKont ⟨hv, hrest⟩ rfl) fun _ _ => ?_
      exact L.send _ hv values_nil nil trivial


/-! ## Builtins that call back -/

theorem trySame {x : Exec Control} (hx : Φ K x (Same K K.control)) : Tries Φ K (liftM x : Attempt Control) Known.control :=
  L.tryLift (L.ofSame hx fun _ h => h)


theorem rewind (abandon : Abandons Φ) (hv : K.value v) : Φ K (Builtin.rewind v) (Same K K.control) := by
  refine L.seq (L.enumeratorOf hv) fun e he => ?_
  refine L.seq (L.asFiber? he.2) fun r hr => ?_
  cases r with
  | none => exact L.seq (L.setEnumeratorFiber hv nil) fun _ _ => L.ret hv
  | some id =>
    refine L.fiber hr (fun _ _ => rfl) fun f _ => ?_
    split
    · exact abandon hr
    · refine L.seq (L.releaseFiber hr) fun _ _ => ?_
      exact L.seq (L.setEnumeratorFiber hv nil) fun _ _ => L.ret hv


theorem runCalling (b : Builtin) (hc : b.calls = true) (abandon : b = .enumRewind → Abandons Φ) (hv : K.value v) (hvs : K.values vs)
    (hb : K.blockArg blk) : Tries Φ K (b.run v vs blk) Known.control := by
  have harg (i : Nat) : K.value (vs.getD i .nil) := value_arg hvs i
  have answered {x : Attempt Control} (hx : Tries Φ K x Known.answer) : Tries Φ K x Known.control :=
    L.tryMono hx fun _ _ _ => control_of_answer
  have enumerated (name : Ident) : Tries Φ K (do
      let e ← Exec.newEnumerator v name []
      return .value e) Known.control := answered (L.tryNewValue (L.newEnumerator name hv values_nil))
  cases b with
  | differs => exact L.trySame (L.sendOperator _ _ hv (harg 0))
  | caseEqual => exact L.trySame (L.sendOperator _ _ hv (harg 0))
  | puts =>
    change Tries Φ K (if vs.isEmpty then _ else _) _
    split
    · exact L.tryGo (L.write _) fun _ _ => L.trySame (L.putsAll hvs)
    · exact L.trySame (L.putsAll hvs)
  | loop =>
    cases blk with
    | none => exact L.tryGo (L.intern _) fun name _ => enumerated name
    | some b => exact L.trySame (L.loopAgain hb)
  | construct =>
    have hmissing : K.cls ClassTable.missing := K.fixed _ (.inr rfl)
    refine L.tryGo (L.asModule? hv) fun r hr => ?_
    refine L.tryNew (L.newObject (hr.getD hmissing)) fun K' obj h hobj => ?_
    refine L.tryGo L.findMethod? fun f _ => ?_
    cases f with
    | none => exact L.tryPure hobj
    | some fn =>
      refine L.tryGo (L.protect hobj) fun _ _ => ?_
      refine L.tryGo (L.pushKont hobj rfl) fun _ _ => ?_
      exact L.trySame (L.send _ hobj (h.values hvs) nil (h.blockArg hb))
  | operator op =>
    refine L.tryGo (L.operation _ hv (harg 0)) fun r hr => ?_
    cases r with
    | done r => exact L.tryPure hr
    | send name negated => exact L.trySame (L.sendOperator _ _ hv (harg 0))
  | times =>
    cases blk with
    | none => exact L.tryGo (L.intern _) fun name _ => enumerated name
    | some b => exact L.tryGo (L.fixnumOf v) fun n _ => L.trySame (L.timesFrom n 0 hv hb)
  | stringAppend =>
    refine L.tryGo (L.asString? (harg 0)) fun s _ => ?_
    cases s with
    | some s => exact answered (L.tryLift (L.ofSame (L.appendText hv s) fun _ h => h))
    | none =>
      refine L.tryGo (L.pushKont ⟨hv, harg 0⟩ rfl) fun _ _ => ?_
      exact L.trySame (L.send _ (harg 0) values_nil nil trivial)
  | arrayEqual =>
    refine L.tryGo (L.asArray? (harg 0)) fun r _ => ?_
    cases r with
    | none => exact L.tryPure (K.imm _ (by decide))
    | some b =>
      refine L.tryGo (L.arrayOf hv) fun a _ => ?_
      dsimp only
      split
      · exact L.tryPure (K.imm _ (by decide))
      · exact L.trySame (L.equalFrom hv (harg 0) _ _)
  | arrayEach =>
    cases blk with
    | none => exact enumerated _
    | some b => exact L.trySame (L.eachFrom hv hb 0)
  | arrayMap =>
    cases blk with
    | none => exact enumerated _
    | some b =>
      refine L.tryNew (L.newArray values_nil) fun K' out h hout => ?_
      refine L.tryGo (L.protect hout) fun _ _ => ?_
      exact L.trySame (L.mapFrom (h.value hv) (h.block hb) hout 0)
  | procCall => exact L.trySame (L.callBlock (blockArg_proc hv) hvs)
  | fiberYield => exact L.tryNew (L.pack hvs) fun K' p _ hp => L.trySame (L.suspend hp)
  | fiberResume => exact L.tryGo (L.fiberOf hv) fun id hid => L.tryLift (L.resumeFiber hid hvs)
  | enumNext =>
    refine L.tryGo (L.enumeratorOf hv) fun e he => ?_
    exact L.tryLift (L.enumeratorNext hv he.1 he.2)
  | enumRewind => exact L.trySame (L.rewind (abandon rfl) hv)
  | enumEach =>
    cases blk with
    | none => exact L.tryPure hv
    | some b => exact L.tryGo (L.enumeratorOf hv) fun e he => L.tryLift (L.drive he.1 hb trivial)
  | enumMap =>
    cases blk with
    | none => exact enumerated _
    | some b =>
      refine L.tryGo (L.enumeratorOf hv) fun e he => ?_
      refine L.tryNew (L.newArray values_nil) fun K' out h hout => ?_
      refine L.tryGo (L.protect hout) fun _ _ => ?_
      exact L.tryLift (L.drive (h.iteration he.1) (h.block hb) hout)
  | enumWithIndex =>
    unfold Builtin.run Builtin.runEnumerator
    dsimp only
    refine L.guard fun _ => ?_
    cases blk with
    | none => exact answered (L.tryNewValue (L.newEnumerator _ hv hvs))
    | some b => exact L.tryGo (L.enumeratorOf hv) fun e he => L.tryLift (L.drive he.1 hb trivial)
  | host name => exact L.tryPure ⟨hv, hvs, hb⟩
  | _ => cases hc

theorem runBuiltin (b : Builtin) (hg : b ≠ .collect) (abandon : b = .enumRewind → Abandons Φ) (hv : K.value v)
    (hvs : K.values vs) (hb : K.blockArg blk) (hn : vs.length ≤ K.changes) : Tries Φ K (b.run v vs blk) Known.control := by
  cases hc : b.calls with
  | true => exact L.runCalling b hc abandon hv hvs hb
  | false => exact L.tryMono (L.runPlain b hc hg hv hvs hb hn) fun _ _ _ => control_of_answer

end CallLogic

end RubyMachine
