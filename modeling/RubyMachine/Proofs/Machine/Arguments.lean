import RubyMachine.Proofs.Machine.Scopes

/-! Binding arguments in every logic. -/

namespace RubyMachine.Logic

open Known Code

variable {K : Known} {v : Value} {vs : List Value} {Φ : ∀ {α : Type}, Known → Exec α → (Known → α → Prop) → Prop}
  (L : Logic Φ)

include L

/-! ## Local slots -/

theorem setLocal (l : Exec.Locals) (i : Int) (hv : K.value v) : Keeps Φ K (l.set i v) := by
  unfold Exec.Locals.set
  exact L.check rfl fun _ => L.setWord _ hv

theorem setOptional (l : Exec.Locals) (slot : Option UInt32) {x : Exec Value} (hx : Φ K x Known.value) :
    Φ K (l.setOptional slot x) fun _ _ => True := by
  unfold Exec.Locals.setOptional
  cases slot with
  | none => exact L.pure trivial
  | some i =>
    refine L.bind hx fun K' v _ hv => ?_
    exact L.ofSame (L.setLocal l _ hv) fun _ _ => trivial

theorem setFrom (l : Exec.Locals) (i : Int) (hv : K.values vs) : Keeps Φ K (l.setFrom i vs) := by
  induction vs generalizing i with
  | nil => exact L.ret trivial
  | cons v vs ih =>
    refine L.seq (L.setWord _ (hv v (by simp))) fun _ _ => ?_
    exact ih (i + 1) fun w hw => hv w (by simp [hw])

theorem copy (l : Exec.Locals) (i j : Int) (hv : K.values vs) : Keeps Φ K (l.copy i j vs) := by
  refine L.seq L.stack fun s _ => ?_
  exact L.check rfl fun _ => L.setFrom l i fun w hw => hv w (List.mem_of_mem_take hw)

theorem unset (l : Exec.Locals) (i j : Int) : Keeps Φ K (l.unset i j) := by
  unfold Exec.Locals.unset
  exact L.check rfl fun _ => L.forM fun k _ => L.setLocal l _ (K.imm _ (by decide))

/-! ## Parameters -/

theorem foldKeywords (p : Params) (argc : Int) (hv : K.value v) :
    Φ K (Exec.foldKeywords p argc v) (Same K fun r => K.value r.2) := by
  unfold Exec.foldKeywords
  split
  · exact L.ret hv
  · exact L.seq (L.push hv) fun _ _ => L.ret nil

theorem fillPositional (p : Params) (l : Exec.Locals) (hv : K.values vs) :
    Φ K (Exec.fillPositional p l vs) (Same K K.values) := by
  have hd (n : Int) : K.values (vs.drop n.toNat) := fun w hw => hv w (List.mem_of_mem_drop hw)
  unfold Exec.fillPositional
  dsimp only
  split
  · refine L.seq (L.copy l _ _ hv) fun _ _ => ?_
    refine L.seq (L.copy l _ _ (hd _)) fun _ _ => L.ret fun w hw => hd _ w (List.mem_of_mem_take hw)
  split
  · refine L.seq (L.copy l _ _ hv) fun _ _ => ?_
    refine L.seq (L.unset l _ _) fun _ _ => ?_
    exact L.seq (L.copy l _ _ (hd _)) fun _ _ => L.ret values_nil
  · refine L.seq (L.copy l _ _ hv) fun _ _ => ?_
    refine L.seq (L.unset l _ _) fun _ _ => ?_
    exact L.seq (L.copy l _ _ (hd _)) fun _ _ => L.ret values_nil

theorem routeKeywords (p : Params) (l : Exec.Locals) {rest : Option Value} (hr : Maybe K.value rest)
    {kvs : List (Value × Value)} (hk : ∀ x ∈ kvs, K.value x.1 ∧ K.value x.2) :
    Tries Φ K (Exec.routeKeywords p l rest kvs) (Same K fun _ => True) := by
  induction kvs with
  | nil => exact L.tryPure ⟨rfl, trivial⟩
  | cons x more ih =>
    obtain ⟨k, w⟩ := x
    have hx := hk (k, w) (by simp)
    have go : Tries Φ K (Exec.routeKeywords p l rest more) (Same K fun _ => True) :=
      ih fun x hx => hk x (by simp [hx])
    unfold Exec.routeKeywords
    split
    · exact L.tryGo (L.setLocal l _ hx.2) fun _ _ => go
    split
    · exact L.tryGo (L.dictInsert hr hx.1 hx.2) fun _ _ => go
    split
    · exact L.tryGo (L.inspect hx.1) fun _ _ => L.tryFailed _
    · exact go

omit L in
theorem values_toList {d : Dict} (hd : ∀ e ∈ d.entries, K.value e.key ∧ K.value e.value) :
    ∀ x ∈ d.toList, K.value x.1 ∧ K.value x.2 := by
  intro x hx
  obtain ⟨e, he, rfl⟩ := List.mem_map.mp hx
  exact hd e (Array.mem_toList_iff.mp he)

/-- What a call does with its keywords once there is a place for those that are left over. -/
def routeGiven (seq : Sequence) (l : Exec.Locals) (v : Value) (rest : Option Value) : Attempt Unit := do
  if !v.isNil then
    match ← Exec.asDict? v with
    | some d => Exec.routeKeywords seq.params l rest d.toList
    | none => Attempt.fail .intoHash

theorem routeGiven_tries (seq : Sequence) (l : Exec.Locals) {rest : Option Value} (hv : K.value v)
    (hr : Maybe K.value rest) : Tries Φ K (routeGiven seq l v rest) fun _ _ => True := by
  unfold routeGiven
  split
  · refine L.tryGo (L.asDict? hv) fun d hd => ?_
    cases d with
    | none => exact L.tryFail _
    | some d => exact L.tryMono (L.routeKeywords _ l hr (values_toList hd)) fun _ _ _ _ => trivial
  · exact L.tryPure trivial

theorem fillKeywords (seq : Sequence) (l : Exec.Locals) (hv : K.value v) :
    Tries Φ K (Exec.fillKeywords seq l v) fun _ _ => True := by
  unfold Exec.fillKeywords
  dsimp only
  split
  · refine L.tryNew L.newDict fun K' d h hd => ?_
    refine L.tryGo (L.setLocal l _ hd) fun _ _ => ?_
    exact L.routeGiven_tries seq l (h.value hv) hd
  · exact L.routeGiven_tries seq l hv trivial

theorem fillParams (seq : Sequence) (low argc : Int) {blk : Option Block} (hv : K.value v)
    (hb : K.blockArg blk) : Tries Φ K (Exec.fillParams seq low argc v blk) fun _ _ => True := by
  unfold Exec.fillParams
  refine L.tryGo L.stack fun s hs => ?_
  refine L.tryGo (L.lift (gives_slice hs _ _)) fun args hargs => ?_
  refine L.tryGo (L.resize _) fun _ _ => ?_
  refine L.tryGo (L.grow _) fun _ _ => ?_
  refine L.tryGo (L.fillPositional _ _ hargs) fun excess hex => ?_
  have given (K' : Known) (h : K ≤ K') : Tries Φ K' (do
      let l : Exec.Locals := ⟨low, seq.slotCount⟩
      l.setOptional seq.delegateSlot do Exec.newArray [← Exec.newArray excess, v]
      seq.params.keywords.forM fun k => l.set k.slot.toNat .uninit
      Exec.fillKeywords seq l v
      l.setOptional seq.blockSlot (Exec.blockToProc blk)) fun _ _ => True := by
    refine L.tryNew (L.setOptional _ _ ?_) fun K1 _ h1 _ => ?_
    · refine L.bind (L.newArray (h.values hex)) fun K1 a h1 ha => ?_
      exact L.newArray (values_cons ha (values_cons ((h.trans h1).value hv) values_nil))
    refine L.trySeq (L.tryForM fun k _ => L.tryLift (L.setLocal _ _ (K1.imm _ (by decide)))) fun _ _ => ?_
    refine L.tryBind (L.fillKeywords seq _ ((h.trans h1).value hv)) fun K2 _ h2 _ => ?_
    exact L.tryLift (L.setOptional _ _ (L.blockToProc (((h.trans h1).trans h2).blockArg hb)))
  dsimp only
  split
  · refine L.tryNew (L.newArray hex) fun K1 a h1 ha => ?_
    exact L.tryGo (L.setLocal _ _ ha) fun _ _ => given K1 h1
  · exact given K (le_refl K)

theorem bindMethod (seq : Sequence) (low argc : Int) {blk : Option Block} (hv : K.value v)
    (hb : K.blockArg blk) : Tries Φ K (Exec.bindMethod seq low argc v blk) fun _ _ => True := by
  unfold Exec.bindMethod
  dsimp only
  split
  · refine L.guard fun _ => ?_
    exact L.tryLift (L.ofSame (L.resize _) fun _ _ => trivial)
  refine L.tryGo (L.foldKeywords _ _ hv) fun r hr => ?_
  split
  · exact L.guard fun _ => L.fillParams seq _ _ hr hb
  · exact L.guard fun _ => L.fillParams seq _ _ hr hb

theorem spreadArray (p : Params) (low argc : Int) (kw : Value) : Keeps Φ K (Exec.spreadArray p low argc kw) := by
  unfold Exec.spreadArray
  split
  · refine L.seq L.stack fun s hs => ?_
    refine L.seq (L.lift (gives_get hs _)) fun w hw => ?_
    refine L.seq (L.asArray? hw) fun a ha => ?_
    cases a with
    | none => exact L.ret trivial
    | some elems =>
      refine L.seq (L.resize _) fun _ _ => ?_
      exact L.seq (L.extend fun v hv => ha v (by simpa using hv)) fun _ _ => L.ret trivial
  · exact L.ret trivial

theorem bindBlock (seq : Sequence) (low argc : Int) {blk : Option Block} (hv : K.value v)
    (hb : K.blockArg blk) : Tries Φ K (Exec.bindBlock seq low argc v blk) fun _ _ => True := by
  refine L.tryGo (L.spreadArray _ _ _ _) fun argc _ => ?_
  split
  · refine L.tryGo (L.resize _) fun _ _ => ?_
    exact L.tryLift (L.ofSame (L.resize _) fun _ _ => trivial)
  refine L.tryGo (L.foldKeywords _ _ hv) fun r hr => ?_
  exact L.fillParams seq _ _ hr hb

end RubyMachine.Logic
