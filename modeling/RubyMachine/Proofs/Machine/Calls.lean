import RubyMachine.Proofs.Machine.Arguments

/-! Operators, fibers and calls in every logic. -/

namespace RubyMachine

/-- What an operator comes to is known. -/
def Known.operation (K : Known) : Exec.Operation → Prop
  | .done r => K.result r
  | .send .. => True

namespace Logic

open Known

variable {K : Known} {v : Value} {vs : List Value} {blk : Option Block}

/-! ## Numbers -/

theorem failure_of (c : Cause) : K.failure (.of c) := nil

theorem value_ofBool (b : Bool) : K.value (.ofBool b) := K.imm _ (Value.isRef_ofBool b)

theorem value_ofFloat (f : Float) : K.value (.ofFloat f) := K.imm _ (Value.isRef_ofFloat f)

theorem result_fixnum (n : Int) : K.result (Number.fixnum n) := by
  unfold Number.fixnum Value.ofInt?
  split
  · rename_i v hv
    split at hv
    · cases hv
    · cases hv
      exact value_ofInt n
  · exact failure_of _

theorem result_negate (n : Int64) : K.result (Number.negate n) := result_fixnum _

theorem result_multiply (a b : Int64) : K.result (Number.multiply a b) := by
  unfold Number.multiply
  split
  · exact result_fixnum _
  · exact failure_of _

theorem result_powerFrom (a r : Int64) (n : Nat) : K.result (Number.powerFrom a r n) := by
  induction n generalizing r with
  | zero => exact result_fixnum _
  | succ n ih =>
    unfold Number.powerFrom
    split
    · split
      · exact ih _
      · exact failure_of _
    · exact failure_of _

theorem result_shiftLeft (a n : Int64) : K.result (Number.shiftLeft a n) := by
  unfold Number.shiftLeft
  dsimp only
  split
  · split
    · exact value_ofInt _
    · exact result_fixnum _
  split
  · exact failure_of _
  split
  · exact failure_of _
  · exact result_fixnum _

theorem result_integerOp (op : Operator) (a b : Int64) : K.result (Number.integerOp op a b Number.inversePower) := by
  cases op with
  | add | sub | bitOr | bitAnd | bitXor => exact result_fixnum _
  | mul => exact result_multiply a b
  | shl | shr => exact result_shiftLeft a _
  | eq | teq | ne | gt | ge | lt | le => exact value_ofBool _
  | cmp => exact value_ofInt _
  | div | rem =>
    unfold Number.integerOp
    dsimp only
    split
    · exact failure_of _
    · exact result_fixnum _
  | pow =>
    unfold Number.integerOp
    dsimp only
    split
    · exact value_ofFloat _
    · exact result_powerFrom a 1 _

theorem value_realOp (op : Operator) (a b : Float) : K.value (Number.realOp op a b) := by
  cases op with
  | add | sub | mul | div | rem | pow => exact value_ofFloat _
  | eq | teq | ne | gt | ge | lt | le => exact value_ofBool _
  | shl | shr | bitOr | bitAnd | bitXor => exact nil
  | cmp =>
    unfold Number.realOp
    dsimp only
    split
    · exact value_ofInt _
    split
    · exact value_ofInt _
    split
    · exact value_ofInt _
    · exact nil

variable {Φ : ∀ {α : Type}, Known → Exec α → (Known → α → Prop) → Prop} (L : Logic Φ)

include L

/-! ## Starting calls -/

theorem attempt {x : Attempt Control} (hx : Tries Φ K x Known.control) : Φ K (Exec.attempt x) Known.control := by
  refine L.bind hx fun K' r _ hr => ?_
  cases r with
  | ok c => exact L.pure hr
  | error f => exact L.pure hr

theorem pushCall (hv : K.value v) (hvs : K.values vs) : Keeps Φ K (Exec.pushCall v vs) := by
  refine L.seq (L.push hv) fun _ _ => ?_
  refine L.seq L.height fun _ _ => ?_
  exact L.seq (L.extend hvs) fun _ _ => L.ret trivial

theorem noMethod (name : Ident) (hv : K.value v) : Φ K (Exec.noMethod name v) (Same K K.failure) := by
  refine L.seq (L.identName name) fun _ _ => ?_
  exact L.seq (L.inspect hv) fun _ _ => L.ret (failure_of _)

theorem callDirect (fn : FnId) (hv : K.value v) (hvs : K.values vs) :
    Φ K (Exec.callDirect fn v vs) (Same K K.control) :=
  L.seq (L.pushCall hv hvs) fun _ _ => L.ret ⟨hv, nil, trivial⟩

/-! ## Operators -/

theorem classNameOf (hv : K.value v) {β : Type} {R : Known → β → Prop} {f : String → Exec β}
    (hf : ∀ s, Φ K (f s) R) : Φ K (do
      let c ← Exec.classOf v
      let s ← Exec.className c
      f s) R := by
  refine L.seq (L.classOf hv) fun c _ => ?_
  exact L.seq (L.className c) fun s _ => hf s

theorem mixedOperation (op : Operator) {lhs rhs : Value} (hl : K.value lhs) (hr : K.value rhs) :
    Φ K (Exec.mixedOperation op lhs rhs) (Same K K.operation) := by
  have compared : Φ K (do
      return .done (.error (.of (.comparison (← Exec.className (← Exec.classOf lhs)) (← Exec.inspect rhs)))))
      (Same K K.operation) := by
    refine L.classNameOf hl fun _ => ?_
    exact L.seq (L.inspect hr) fun _ _ => L.ret (failure_of _)
  have coerced : Φ K (do
      return .done (.error (.of (.coercion (← Exec.className (← Exec.classOf rhs))
        (← Exec.className (← Exec.classOf lhs)))))) (Same K K.operation) :=
    L.classNameOf hr fun _ => L.classNameOf hl fun _ => L.ret (failure_of _)
  cases op with
  | eq | teq | ne => exact L.ret (K.imm _ (by decide))
  | gt | ge | lt | le => exact compared
  | cmp => exact L.ret nil
  | _ => exact coerced

theorem operation (op : Operator) {lhs rhs : Value} (hl : K.value lhs) (hr : K.value rhs) :
    Φ K (Exec.operation op lhs rhs) (Same K K.operation) := by
  unfold Exec.operation
  split
  · exact L.ret (result_integerOp op _ _)
  split
  · exact L.ret (value_realOp op _ _)
  split
  · exact L.mixedOperation op hl hr
  split
  · split
    · exact L.ret (K.imm _ (by decide))
    · exact L.ret trivial
  · split
    · exact L.ret (K.imm _ (by decide))
    · exact L.ret trivial
  · exact L.ret trivial
  · exact L.ret trivial

end Logic

namespace CallLogic

open Known Logic

variable {K : Known} {v : Value} {vs : List Value} {blk : Option Block}
  {Φ : ∀ {α : Type}, Known → Exec α → (Known → α → Prop) → Prop} (L : CallLogic Φ)

include L

/-! ## Sends -/

theorem markBoundary : Keeps Φ K Exec.markBoundary := by
  refine L.seq L.frame? fun f _ => ?_
  split
  · exact L.pushKont trivial rfl
  · exact L.ret trivial

theorem send (name : Ident) {kw : Value} (hv : K.value v) (hvs : K.values vs) (hk : K.value kw)
    (hb : K.blockArg blk) : Φ K (Exec.send name v vs kw blk) (Same K K.control) := by
  refine L.seq (L.classOf hv) fun c _ => ?_
  refine L.seq L.findMethod? fun r _ => ?_
  cases r with
  | none => exact L.seq (L.noMethod name hv) fun f hf => L.ret hf
  | some fn =>
    refine L.seq L.markBoundary fun _ _ => ?_
    exact L.seq (L.pushCall hv hvs) fun base _ => L.ret ⟨hv, hk, hb⟩

theorem callBlock (hb : K.blockArg blk) (hvs : K.values vs) :
    Φ K (Exec.callBlock blk vs) (Same K K.control) := by
  cases blk with
  | none => exact L.ret (failure_of _)
  | some b =>
    refine L.seq L.markBoundary fun _ _ => ?_
    exact L.seq (L.pushCall nil hvs) fun _ _ => L.ret hb

theorem sendOperator (name : Ident) (negated : Bool) {lhs rhs : Value} (hl : K.value lhs) (hr : K.value rhs) :
    Φ K (Exec.sendOperator name negated lhs rhs) (Same K K.control) := by
  have sent := L.send name hl (values_cons hr values_nil) nil K.blockArg_none
  unfold Exec.sendOperator
  dsimp only
  split
  · exact L.seq (L.pushKont trivial rfl) fun _ _ => sent
  · exact sent

end CallLogic

end RubyMachine
