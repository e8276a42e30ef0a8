import RubyMachine.Machine.Step
import RubyMachine.Proofs.Arguments.Shortcut

/-! Keywords that the callee declares no parameter for. Code and builtins take them as one more positional argument
(`call_folds`), so that they count for the arity; attributes never see them (`call_attribute`). -/

namespace RubyMachine

open Exec Machine Code

/-- Keywords are one more positional argument for the function: it is a builtin, or code that declares none. Its
local slots can be counted. -/
inductive FunctionBody.Folds (base : Nat) : FunctionBody → Prop where
  | builtin (b : Builtin) : Folds base (.builtin b)
  | code {seq : Sequence} {req opt post : Nat} : seq.Regular req opt post → seq.params.hasKeywords = false →
    seq.params.delegate = false → base + seq.slotCount < 2 ^ 63 → Folds base (.code seq)

/-- The function is an attribute, which reads or writes one instance variable. -/
inductive FunctionBody.IsAttribute : FunctionBody → Prop where
  | reader (ivar : Ident) : IsAttribute (.attrReader ivar)
  | writer (ivar : Ident) : IsAttribute (.attrWriter ivar)

namespace Coincide

variable {α β : Type} {P Q : Prop} {x y : EStateM.Result Defect Machine α}

theorem mono (h : Coincide P x y) (hPQ : Q → P) : Coincide Q x y := by
  cases h with
  | ok a m => exact .ok a m
  | error hd => exact .error fun q => hd (hPQ q)

theorem symm (h : Coincide P x y) : Coincide P y x := by
  cases h with
  | ok a m => exact .ok a m
  | error hd => exact .error fun p => (hd p).symm

/-- Runs that coincide go on alike. -/
theorem bind {x y : Exec α} {m m' : Machine} (h : Coincide P (x m) (y m')) (f : α → Exec β) :
    Coincide P ((x >>= f) m) ((y >>= f) m') := by
  rw [bind_apply, bind_apply]
  generalize x m = r at h ⊢
  generalize y m' = r' at h ⊢
  cases h with
  | ok a m => exact .of_eq rfl
  | error hd => exact .error hd

end Coincide

variable {m : Machine} {seq : Sequence} {base argc req opt post : Nat} {kw : Value} {blk : Option Block} {fn : FnId}
  {f : Function}

theorem Machine.Passes.push (hm : m.Passes base argc) (hroom : base + argc < m.context.stack.capacity) (v : Value) :
    push v m = .ok () (m.pushed v) := by
  have hlen := hm.len
  have hstack : Exec.stack m = .ok m.context.stack m := rfl
  rw [Exec.push, bind_of_ok hstack, bind_of_ok (check_apply (by omega))]
  rfl

theorem Machine.Passes.pushed (hm : m.Passes base argc) (hroom : base + argc < m.context.stack.capacity) (v : Value) :
    (m.pushed v).Passes base (argc + 1) where
  len := congrArg (· + 1) hm.len
  room := hroom
  small := hm.small

/-! ## Code -/

theorem foldKeywords_pushed {p : Params} (hm : m.Passes base argc) (hroom : base + argc < m.context.stack.capacity)
    (hk : p.hasKeywords = false) (hd : p.delegate = false) (hkw : kw.isNil = false) :
    foldKeywords p argc kw m = .ok ((argc + 1 : Nat), .nil) (m.pushed kw) := by
  rw [foldKeywords, if_neg (by simp [hk, hd, hkw]), bind_of_ok (hm.push hroom kw)]
  rfl

theorem foldKeywords_nil (p : Params) (n : Int) (m : Machine) : foldKeywords p n .nil m = .ok (n, .nil) m := rfl

/-- The general layout does not tell keywords from a last argument. -/
theorem layMethod_folds (hm : m.Passes base argc) (hroom : base + argc < m.context.stack.capacity)
    (hk : seq.params.hasKeywords = false) (hd : seq.params.delegate = false) (hkw : kw.isNil = false) :
    (layMethod seq base argc kw blk).run m = (layMethod seq base (argc + 1 : Nat) .nil blk).run (m.pushed kw) := by
  rw [layMethod, layMethod]
  dsimp only
  rw [Attempt.run_lift_bind (foldKeywords_pushed hm hroom hk hd hkw),
    Attempt.run_lift_bind (foldKeywords_nil seq.params (argc + 1 : Nat) (m.pushed kw))]

theorem Code.Sequence.Regular.plain_of_isSimple (hs : seq.Regular req opt post) (h : seq.params.isSimple = true)
    (hword : seq.slotCount < 2 ^ 63) : seq.Plain req := by
  obtain ⟨-, -, -, -, hr, hd, hb⟩ := hs.plain h
  have hfits := hs.fits
  exact ⟨h, hs.required, by omega, hr, hd, hb, hword⟩

/-- With the shortcut too: what has keywords takes the general layout, and an argument in their place may not. -/
theorem bindMethod_folds (hs : seq.Regular req opt post) (hm : m.Passes base argc)
    (hroom : base + argc < m.context.stack.capacity) (hk : seq.params.hasKeywords = false)
    (hd : seq.params.delegate = false) (hword : base + seq.slotCount < 2 ^ 63) (hkw : kw.isNil = false) :
    Coincide True ((bindMethod seq base argc kw blk).run m)
      ((bindMethod seq base (argc + 1 : Nat) .nil blk).run (m.pushed kw)) := by
  have hlay : (bindMethod seq base argc kw blk).run m =
      (layMethod seq base (argc + 1 : Nat) .nil blk).run (m.pushed kw) := by
    rw [bindMethod_eq, if_neg (by simp [hkw]), layMethod_folds hm hroom hk hd hkw]
  rw [hlay]
  cases hsimple : seq.params.isSimple with
  | true =>
    have hplain := hs.plain_of_isSimple hsimple (by omega)
    exact hplain.method_alike (hm.pushed hroom kw) |>.symm.mono fun _ => hword
  | false =>
    refine .of_eq ?_
    rw [bindMethod_eq, hsimple, if_neg (by simp)]

/-! ## Calls -/

/-- A builtin gets them in the list of its arguments, after they were counted. -/
theorem enterBuiltin_folds (hm : m.Passes base argc) (hroom : base + argc < m.context.stack.capacity)
    (hkw : kw.isNil = false) (arity : Arity) (self : Value) (blk : Option Block) :
    enterBuiltin arity self base argc kw blk m = enterBuiltin arity self base (argc + 1 : Nat) .nil blk (m.pushed kw) := by
  rw [enterBuiltin, enterBuiltin, if_neg (by rw [hkw]; exact Bool.false_ne_true), if_pos (show Value.nil.isNil = true from rfl),
    bind_of_ok (hm.push hroom kw)]
  rfl

/-- For code and for builtins without a parameter for keywords, a call with keywords is the call that passes them as one
more argument: the same machine comes out with the same to do next. -/
theorem call_folds (hm : m.Passes base argc) (hroom : base + argc < m.context.stack.capacity) (hkw : kw.isNil = false)
    (hf : m.functions.get fn = .ok f) (hfolds : f.body.Folds base) (self : Value) (blk : Option Block) :
    Coincide True (call fn self base argc kw blk m) (call fn self base (argc + 1 : Nat) .nil blk (m.pushed kw)) := by
  have hget : function fn m = .ok f m := by
    rw [function, bind_of_ok (get_apply m), hf]
    rfl
  have hget' : function fn (m.pushed kw) = .ok f (m.pushed kw) := by
    rw [function, bind_of_ok (get_apply _), show (m.pushed kw).functions = m.functions from rfl, hf]
    rfl
  unfold call
  rw [bind_of_ok hget, bind_of_ok hget']
  generalize f.body = body at hfolds
  cases hfolds with
  | builtin b => exact (Coincide.of_eq (enterBuiltin_folds hm hroom hkw f.arity self blk)).bind _
  | code hs hk hd hword => exact (bindMethod_folds hs hm hroom hk hd hword hkw).bind _

/-- An attribute is read and written as if no keywords had been passed. -/
theorem call_attribute (hf : m.functions.get fn = .ok f) (ha : f.body.IsAttribute) (self : Value) (base argc : Int)
    (kw : Value) (blk : Option Block) : call fn self base argc kw blk m = call fn self base argc .nil none m := by
  have hget : function fn m = .ok f m := by
    rw [function, bind_of_ok (get_apply m), hf]
    rfl
  unfold call
  rw [bind_of_ok hget, bind_of_ok hget]
  generalize f.body = body at ha
  cases ha with
  | reader ivar => rfl
  | writer ivar => rfl

end RubyMachine
