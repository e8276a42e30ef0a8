import RubyMachine.Machine.Inspect
import RubyMachine.Proofs.Scope.Moves

/-! The text of a value stays what it is while the objects it is read from stay. -/

namespace RubyMachine

open Machine

/-- Where `x` gives a result, `y` gives the same. -/
def Repeats {ε α : Type} (x y : Except ε α) : Prop := ∀ a, x = .ok a → y = .ok a

namespace Repeats

variable {ε α β : Type} {x y : Except ε α} {f g : α → Except ε β}

theorem refl (x : Except ε α) : Repeats x x := fun _ h => h

theorem bind (hx : Repeats x y) (hf : ∀ a, x = .ok a → Repeats (f a) (g a)) : Repeats (x >>= f) (y >>= g) := by
  intro b h
  cases hxa : x with
  | error e =>
    rw [hxa] at h
    cases h
  | ok a =>
    rw [hxa] at h
    rw [hx a hxa]
    exact hf a hxa b h

theorem mapM (h : ∀ a, Repeats (f a) (g a)) (l : List α) : Repeats (l.mapM f) (l.mapM g) := by
  induction l with
  | nil => exact refl _
  | cons a l ih =>
    rw [List.mapM_cons, List.mapM_cons]
    exact (h a).bind fun b _ => ih.bind fun bs _ => refl _

end Repeats

namespace Machine.KeepsObjects

variable {m m₁ : Machine} {n n' : Nat} {v : Value} {s : String}

/-- Looking deeper shows the same text. -/
theorem inspectTo (hk : m.KeepsObjects m₁) (hrest : m₁.withMemory m = m) (hn : n ≤ n') :
    Repeats (m.inspectTo n v) (m₁.inspectTo n' v) := by
  have hidents : (m₁.withMemory m).idents = m.idents := by rw [hrest]
  have hclasses : (m₁.withMemory m).classes = m.classes := by rw [hrest]
  have hfibers : (m₁.withMemory m).fibers = m.fibers := by rw [hrest]
  replace hidents : m₁.idents = m.idents := hidents
  replace hclasses : m₁.classes = m.classes := hclasses
  replace hfibers : m₁.fibers = m.fibers := hfibers
  induction n generalizing n' v with
  | zero => exact nofun
  | succ n ih =>
    obtain ⟨n', rfl⟩ := Nat.exists_eq_add_of_le' (Nat.le_of_add_left_le hn)
    replace ih (w : Value) : Repeats (m.inspectTo n w) (m₁.inspectTo n' w) := ih (by omega)
    have hread : Repeats (m.heap.read v.toRef) (m₁.heap.read v.toRef) := hk v
    have hclass (o : Object) : Exec.objectClass m₁ o = Exec.objectClass m o := by
      cases o <;> simp only [Exec.objectClass, hclasses]
    unfold Machine.inspectTo
    rw [hidents, hclasses, hfibers]
    split_ifs
    · exact .refl _
    · exact .refl _
    · exact .refl _
    refine hread.bind fun o _ => ?_
    cases o with
    | array elems => exact (Repeats.mapM ih _).bind fun _ _ => .refl _
    | dict d =>
      refine (Repeats.mapM (fun (e : Value × Value) => ?_) _).bind fun _ _ => .refl _
      exact (ih e.1).bind fun _ _ => (ih e.2).bind fun _ _ => .refl _
    | enumerator e => exact (ih _).bind fun _ _ => (Repeats.mapM ih _).bind fun _ _ => .refl _
    | _ =>
      simp only [hclass]
      exact .refl _

/-- The text that a program sees. -/
theorem inspect (hk : m.KeepsObjects m₁) (hrest : m₁.withMemory m = m) (hp : m.heap.pages.size ≤ m₁.heap.pages.size)
    (h : m.inspect v = .ok s) : m₁.inspect v = .ok s := by
  refine hk.inspectTo hrest ?_ s h
  have := Nat.mul_le_mul_right Heap.pageCells hp
  omega

end Machine.KeepsObjects

end RubyMachine
