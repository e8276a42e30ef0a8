import Mathlib.Data.Fintype.Prod
import Mathlib.Data.Finset.Card
import Mathlib.Logic.Relation
import Mathlib.Order.WellFounded
import RubyMachine.Machine.Builtins
import RubyMachine.Proofs.Machine.Collections
import RubyMachine.Proofs.Scope.Filling
import RubyMachine.Proofs.Value.Kinds

/-! The text of a value. There is one if the value is built up from others in finitely many steps, and only then
(`inspect_iff`): the bound on the depth, one more than there are cells, is never met before a value contains itself
(`inspect_cases`). Values go on having texts as long as nothing is stored in what it leads to (`inspect_built`). -/

namespace RubyMachine

open Relation Exec

/-! ## How computations end -/

section Ends

variable {ε α β : Type} {x : Except ε α} {f : α → Except ε β} {P : Prop}

def Succeeds (x : Except ε α) : Prop := ∃ a, x = .ok a

theorem succeeds_ok (a : α) : Succeeds (.ok a : Except ε α) := ⟨a, rfl⟩

theorem not_succeeds_error (e : ε) : ¬ Succeeds (.error e : Except ε α) := by
  rintro ⟨a, ha⟩
  cases ha

theorem succeeds_bind_iff (hf : ∀ a, Succeeds (f a) ↔ P) : Succeeds (x >>= f) ↔ Succeeds x ∧ P := by
  cases x with
  | error e => exact iff_of_false (not_succeeds_error e) fun h => not_succeeds_error e h.1
  | ok a => exact (hf a).trans (iff_and_self.2 fun _ => succeeds_ok a)

theorem succeeds_map_iff {g : α → β} : Succeeds (x >>= fun a => .ok (g a)) ↔ Succeeds x := by
  rw [succeeds_bind_iff fun a => iff_true_intro (succeeds_ok (g a)), and_true]

theorem succeeds_mapM_iff {l : List α} : Succeeds (l.mapM f) ↔ ∀ a ∈ l, Succeeds (f a) := by
  induction l with
  | nil => exact iff_of_true (succeeds_ok []) fun _ h => absurd h List.not_mem_nil
  | cons a l ih =>
    rw [List.mapM_cons, List.forall_mem_cons, ← ih]
    exact succeeds_bind_iff fun _ => succeeds_map_iff

/-- The error `e` is the only one that `x` can end in. -/
def EndsIn (e : ε) (x : Except ε α) : Prop := ∀ e', x = .error e' → e' = e

variable {e : ε}

theorem endsIn_ok (a : α) : EndsIn e (.ok a : Except ε α) := by
  intro e' h
  cases h

theorem EndsIn.bind (hx : EndsIn e x) (hf : ∀ a, EndsIn e (f a)) : EndsIn e (x >>= f) := by
  cases x with
  | error e' =>
    intro e'' h
    cases h
    exact hx _ rfl
  | ok a => exact hf a

theorem EndsIn.ok_bind {a : α} (h : EndsIn e (f a)) : EndsIn e (.ok a >>= f) := h

theorem EndsIn.mapM {l : List α} (hf : ∀ a ∈ l, EndsIn e (f a)) : EndsIn e (l.mapM f) := by
  induction l with
  | nil => exact endsIn_ok []
  | cons a l ih =>
    rw [List.mapM_cons]
    rw [List.forall_mem_cons] at hf
    exact hf.1.bind fun _ => (ih hf.2).bind fun _ => endsIn_ok _

end Ends

/-! ## What a text is made of -/

/-- The values whose texts are in the text of an object. -/
def Object.shown : Object → List Value
  | .array elems => elems.toList
  | .dict d => d.toList.flatMap fun e => [e.1, e.2]
  | .enumerator e => e.iteration.receiver :: e.iteration.args
  | _ => []

/-- An instance is shown by the name of its class, which it must have. -/
def Object.Named : Object → Prop
  | .instance k _ => k ≠ ClassTable.missing
  | _ => True

namespace Machine

variable {m m' : Machine} {n : Nat} {u v w : Value} {o : Object}

/-- The text of `w` is in that of `v`. -/
def Shows (m : Machine) (v w : Value) : Prop := v.isRef = true ∧ ∃ o, m.heap.read v.toRef = .ok o ∧ w ∈ o.shown

/-- `v` is built up in finitely many steps from values that are there. -/
inductive Nests (m : Machine) : Value → Prop
  | plain {v : Value} : v.isRef = false → Nests m v
  | object {v : Value} {o : Object} : v.isRef = true → m.heap.read v.toRef = .ok o → o.Named →
      (∀ w ∈ o.shown, Nests m w) → Nests m v

theorem inspectTo_plain (hv : v.isRef = false) (n : Nat) : Succeeds (m.inspectTo (n + 1) v) := by
  unfold inspectTo
  rw [hv]
  split_ifs
  · exact succeeds_ok _
  · exact succeeds_ok _
  · exact succeeds_ok _
  · contradiction

/-- An object has a text if all that it shows has one. -/
theorem inspectTo_iff (hv : v.isRef = true) : Succeeds (m.inspectTo (n + 1) v) ↔
    ∃ o, m.heap.read v.toRef = .ok o ∧ o.Named ∧ ∀ w ∈ o.shown, Succeeds (m.inspectTo n w) := by
  have hsymbol : v.isSymbol = false := Value.hasTag_of_ne hv (by decide)
  have hfloat : v.isFloat = false := Value.isFloat_of_hasTag hv (by decide)
  rw [inspectTo, hsymbol, hfloat, hv]
  cases hr : m.heap.read v.toRef with
  | error d =>
    refine iff_of_false (not_succeeds_error d) ?_
    rintro ⟨o, ho, -⟩
    cases ho
  | ok o =>
    simp only [Except.ok.injEq, exists_eq_left']
    cases o with
    | array elems =>
      have hnamed : (Object.array elems).Named := trivial
      rw [and_iff_right hnamed]
      exact succeeds_map_iff.trans succeeds_mapM_iff
    | dict d =>
      have hnamed : (Object.dict d).Named := trivial
      have hentry (e : Value × Value) : Succeeds (do
          return (← m.inspectTo n e.1) ++ " => " ++ (← m.inspectTo n e.2)) ↔
          Succeeds (m.inspectTo n e.1) ∧ Succeeds (m.inspectTo n e.2) :=
        succeeds_bind_iff fun _ => succeeds_map_iff
      rw [and_iff_right hnamed, Object.shown, List.forall_mem_flatMap]
      refine succeeds_map_iff.trans (succeeds_mapM_iff.trans (forall₂_congr fun e _ => (hentry e).trans ?_))
      rw [List.forall_mem_cons, List.forall_mem_singleton]
    | enumerator e =>
      have hnamed : (Object.enumerator e).Named := trivial
      rw [and_iff_right hnamed, Object.shown, List.forall_mem_cons]
      exact succeeds_bind_iff fun _ => succeeds_map_iff.trans succeeds_mapM_iff
    | «instance» k s =>
      have hnone : ∀ w ∈ (Object.instance k s).shown, Succeeds (m.inspectTo n w) := fun _ h => absurd h List.not_mem_nil
      rw [and_iff_left hnone]
      by_cases hk : k = ClassTable.missing
      · refine iff_of_false ?_ fun h => h hk
        show ¬ Succeeds (do
          if k = ClassTable.missing then throw .fault
          return _ : Except Defect String)
        rw [if_pos hk]
        exact not_succeeds_error _
      · refine iff_of_true ?_ hk
        show Succeeds (do
          if k = ClassTable.missing then throw .fault
          return _ : Except Defect String)
        rw [if_neg hk]
        exact succeeds_ok _
    | string | module | exception | fiber | splat | proc | scope =>
      exact iff_of_true (succeeds_ok _) ⟨trivial, fun _ h => absurd h List.not_mem_nil⟩

theorem Shows.congr (hu : u.isRef = true) (he : u.toRef = v.toRef) (h : m.Shows v w) : m.Shows u w := by
  obtain ⟨-, o, hr, hw⟩ := h
  exact ⟨hu, o, he ▸ hr, hw⟩

namespace Nests

/-- What is built up refers to something that is there. -/
theorem object_of_isRef (h : m.Nests v) (hv : v.isRef = true) : ∃ o, m.heap.read v.toRef = .ok o ∧ o.Named ∧
    ∀ w ∈ o.shown, m.Nests w := by
  cases h with
  | plain hv' =>
    rw [hv'] at hv
    cases hv
  | object _ hr hn hw => exact ⟨_, hr, hn, hw⟩

theorem of_shows (h : m.Nests v) (hs : m.Shows v w) : m.Nests w := by
  obtain ⟨hv, o, hr, hw⟩ := hs
  obtain ⟨o', hr', -, hall⟩ := h.object_of_isRef hv
  cases hr.symm.trans hr'
  exact hall w hw

theorem of_leads (h : m.Nests v) (hl : ReflTransGen m.Shows v w) : m.Nests w := by
  induction hl with
  | refl => exact h
  | tail _ hs ih => exact ih.of_shows hs

/-- What is built up does not contain itself. -/
theorem acyclic (h : m.Nests v) : ¬ TransGen m.Shows v v := by
  induction h with
  | plain hv =>
    intro hc
    obtain ⟨w, hs, -⟩ := TransGen.head'_iff.1 hc
    rw [hs.1] at hv
    cases hv
  | @object v o hv hr _ _ ih =>
    intro hc
    obtain ⟨w, hs, hl⟩ := TransGen.head'_iff.1 hc
    obtain ⟨-, o', hr', hw⟩ := id hs
    cases hr.symm.trans hr'
    exact ih w hw (TransGen.tail' hl hs)

/-- The cell of a value is not met again below it, so that each step down leaves fewer cells to meet. -/
theorem inspectTo (h : m.Nests v) (S : Finset (Nat × Nat))
    (hS : ∀ u, ReflTransGen m.Shows v u → u.isRef = true → (u.toRef.page, u.toRef.cell) ∈ S) (hn : S.card < n) :
    Succeeds (m.inspectTo n v) := by
  obtain ⟨n, rfl⟩ : ∃ k, n = k + 1 := ⟨n - 1, by omega⟩
  induction h generalizing S n with
  | plain hv => exact inspectTo_plain hv n
  | @object v o hv hr hnamed hall ih =>
    refine (inspectTo_iff hv).2 ⟨o, hr, hnamed, fun w hw => ?_⟩
    have hs : m.Shows v w := ⟨hv, o, hr, hw⟩
    have hmem := hS v .refl hv
    have hcard := Finset.card_erase_of_mem hmem
    have hpos := Finset.card_pos.2 ⟨_, hmem⟩
    obtain ⟨n, rfl⟩ : ∃ k, n = k + 1 := ⟨n - 1, by omega⟩
    refine ih w hw (S.erase (v.toRef.page, v.toRef.cell)) (fun u hl hu => Finset.mem_erase.2 ⟨fun he => ?_, ?_⟩) n (by omega)
    · -- a value below with the cell of `v` shows what `v` shows
      obtain ⟨o', hr', -⟩ := ((hall w hw).of_leads hl).object_of_isRef hu
      obtain ⟨hpage, hcell⟩ := Prod.mk.inj he
      exact (hall w hw).acyclic (TransGen.tail' hl (hs.congr hu (toRef_eq_of_read hr hr' hpage hcell)))
    · exact hS u (hl.head hs) hu

theorem inspect (h : m.Nests v) : Succeeds (m.inspect v) := by
  refine h.inspectTo (Finset.range m.heap.pages.size ×ˢ Finset.range Heap.pageCells) (fun u hl hu => ?_) ?_
  · obtain ⟨o, hr, -⟩ := (h.of_leads hl).object_of_isRef hu
    obtain ⟨hpage, hcell, -⟩ := Heap.read_eq_ok.1 hr
    exact Finset.mk_mem_product (Finset.mem_range.2 hpage) (Finset.mem_range.2 hcell)
  · rw [Finset.card_product, Finset.card_range, Finset.card_range]
    omega

end Nests

theorem nests_of_inspectTo (h : Succeeds (m.inspectTo n v)) : m.Nests v := by
  induction n generalizing v with
  | zero => exact absurd h (not_succeeds_error _)
  | succ n ih =>
    cases hv : v.isRef with
    | false => exact .plain hv
    | true =>
      obtain ⟨o, hr, hnamed, hall⟩ := (inspectTo_iff hv).1 h
      exact .object hv hr hnamed fun w hw => ih (hall w hw)

/-- A value has a text if and only if it is built up in finitely many steps from values that are there. -/
theorem inspect_iff : (∃ s, m.inspect v = .ok s) ↔ m.Nests v :=
  ⟨nests_of_inspectTo, Nests.inspect⟩

/-! ## Values that contain themselves -/

/-- All that `v` leads to is there. -/
def Complete (m : Machine) (v : Value) : Prop :=
  ∀ u, ReflTransGen m.Shows v u → u.isRef = true → ∃ o, m.heap.read u.toRef = .ok o ∧ o.Named

theorem Complete.of_shows (h : m.Complete v) (hs : m.Shows v w) : m.Complete w := fun u hl => h u (hl.head hs)

theorem Complete.inspectTo (h : m.Complete v) (n : Nat) : EndsIn .endless (m.inspectTo n v) := by
  induction n generalizing v with
  | zero =>
    intro d hd
    cases hd
    rfl
  | succ n ih =>
    cases hv : v.isRef with
    | false =>
      obtain ⟨s, hs⟩ := inspectTo_plain (m := m) hv n
      rw [hs]
      exact endsIn_ok s
    | true =>
      obtain ⟨o, hr, hnamed⟩ := h v .refl hv
      replace ih (w : Value) (hw : w ∈ o.shown) : EndsIn .endless (m.inspectTo n w) := ih (h.of_shows ⟨hv, o, hr, hw⟩)
      have hsymbol : v.isSymbol = false := Value.hasTag_of_ne hv (by decide)
      have hfloat : v.isFloat = false := Value.isFloat_of_hasTag hv (by decide)
      rw [Machine.inspectTo, hsymbol, hfloat, hv, hr]
      refine EndsIn.ok_bind ?_
      cases o with
      | array elems => exact (EndsIn.mapM ih).bind fun _ => endsIn_ok _
      | dict d =>
        refine EndsIn.bind (EndsIn.mapM fun e he => ?_) fun _ => endsIn_ok _
        have hentry : ∀ w ∈ [e.1, e.2], w ∈ (Object.dict d).shown := fun w hw => List.mem_flatMap.2 ⟨e, he, hw⟩
        rw [List.forall_mem_cons, List.forall_mem_singleton] at hentry
        exact (ih _ hentry.1).bind fun _ => (ih _ hentry.2).bind fun _ => endsIn_ok _
      | enumerator e =>
        refine (ih _ List.mem_cons_self).bind fun _ => ?_
        exact (EndsIn.mapM fun w hw => ih w (List.mem_cons_of_mem _ hw)).bind fun _ => endsIn_ok _
      | «instance» k s =>
        show EndsIn _ (do
          if k = ClassTable.missing then throw .fault
          return _ : Except Defect String)
        rw [if_neg hnamed]
        exact endsIn_ok _
      | string | module | exception | fiber | splat | proc | scope => exact endsIn_ok _

instance Value.finite : Finite Value :=
  Finite.of_injective (fun u => u.bits.toFin) fun u w h => by
    cases u
    cases w
    exact congrArg Value.mk (UInt64.toFin_inj.1 h)

/-- Of the values that `v` leads to, those below `y` are the ones that `y` leads to in turn. -/
def Below (m : Machine) (v : Value) (x y : { u // ReflTransGen m.Shows v u }) : Prop := TransGen m.Shows y.1 x.1

/-- There are finitely many words, so what leads to no value that contains itself is built up in finitely many steps. -/
theorem Complete.nests (h : m.Complete v) (hc : ∀ u, ReflTransGen m.Shows v u → ¬ TransGen m.Shows u u) : m.Nests v := by
  have : IsTrans _ (m.Below v) := ⟨fun _ _ _ hxy hyz => hyz.trans hxy⟩
  have : Std.Irrefl (m.Below v) := ⟨fun x hx => hc x.1 x.2 hx⟩
  have hwf : WellFounded (m.Below v) := Finite.wellFounded_of_trans_of_irrefl _
  suffices hall : ∀ x : { u // ReflTransGen m.Shows v u }, m.Nests x.1 from hall ⟨v, .refl⟩
  intro x
  induction x using hwf.induction with
  | h x ih =>
    obtain ⟨u, hl⟩ := x
    cases hu : u.isRef with
    | false => exact .plain hu
    | true =>
      obtain ⟨o, hr, hnamed⟩ := h u hl hu
      refine .object hu hr hnamed fun w hw => ?_
      have hs : m.Shows u w := ⟨hu, o, hr, hw⟩
      exact ih ⟨w, hl.tail hs⟩ (TransGen.single hs)

/-- A value that leads only to what is there has a text or leads to one that contains itself. Then the text has no end. -/
theorem inspect_cases (h : m.Complete v) : (m.Nests v ∧ ∃ s, m.inspect v = .ok s) ∨
    (∃ u, ReflTransGen m.Shows v u ∧ TransGen m.Shows u u) ∧ m.inspect v = .error .endless := by
  by_cases hn : m.Nests v
  · exact .inl ⟨hn, hn.inspect⟩
  refine .inr ⟨?_, ?_⟩
  · by_contra hc
    exact hn (h.nests fun u hl hu => hc ⟨u, hl, hu⟩)
  · cases hi : m.inspect v with
    | ok s => exact absurd (inspect_iff.1 ⟨s, hi⟩) hn
    | error d => rw [h.inspectTo _ d hi]

/-! ## What programs do to objects -/

/-- `w` leads to a value with the cell of `v`. -/
def LeadsTo (m : Machine) (w v : Value) : Prop :=
  ∃ u, ReflTransGen m.Shows w u ∧ u.isRef = true ∧ u.toRef.page = v.toRef.page ∧ u.toRef.cell = v.toRef.cell

/-- A change at `v` is not seen in what does not lead there. -/
theorem Nests.framed (h : m.Nests w) (hl : ¬ m.LeadsTo w v)
    (ho : ∀ (u : Value) o, ¬ (u.toRef.page = v.toRef.page ∧ u.toRef.cell = v.toRef.cell) →
      m.heap.read u.toRef = .ok o → m'.heap.read u.toRef = .ok o) : m'.Nests w := by
  induction h with
  | plain hw => exact .plain hw
  | @object w o hw hr hnamed _ ih =>
    refine .object hw (ho w o (fun hsame => hl ⟨w, .refl, hw, hsame⟩) hr) hnamed fun x hx => ih x hx ?_
    rintro ⟨u, hu, hsame⟩
    exact hl ⟨u, hu.head ⟨hw, o, hr, hx⟩, hsame⟩

/-- There is one object in a cell. -/
theorem eq_of_sameCell {o' : Object} (hs : w.toRef.page = v.toRef.page ∧ w.toRef.cell = v.toRef.cell)
    (hw : m.heap.read w.toRef = .ok o') (hv : m.heap.read v.toRef = .ok o) : o' = o := by
  rw [toRef_eq_of_read hv hw hs.1 hs.2] at hw
  exact Except.ok.inj (hw.symm.trans hv)

/-- An object may change to show other values, as long as these do not lead back to it. -/
theorem Nests.update {f : Object → Object} (h : m.Nests w) (hr : m.heap.read v.toRef = .ok o) (hnamed : (f o).Named)
    (hall : ∀ x ∈ (f o).shown, m.Nests x ∧ ¬ m.LeadsTo x v) : (after (Exec.update v f) m).Nests w := by
  have ho (u : Value) (o' : Object) (hne : ¬ (u.toRef.page = v.toRef.page ∧ u.toRef.cell = v.toRef.cell))
      (hr' : m.heap.read u.toRef = .ok o') : (after (Exec.update v f) m).heap.read u.toRef = .ok o' := by
    rw [read_after_update, if_neg hne, hr']
  induction h with
  | plain hw => exact .plain hw
  | @object w o' hw hr' hn _ ih =>
    by_cases hsame : w.toRef.page = v.toRef.page ∧ w.toRef.cell = v.toRef.cell
    · cases eq_of_sameCell hsame hr' hr
      have hnew : (after (Exec.update v f) m).heap.read w.toRef = .ok (f o) := by
        rw [read_after_update, if_pos hsame, hr']
        rfl
      exact .object hw hnew hnamed fun x hx => (hall x hx).1.framed (hall x hx).2 ho
    · exact .object hw (ho w o' hsame hr') hn ih

theorem Nests.kept (h : m.Nests w) (ho : m.KeepsObjects m') : m'.Nests w := by
  induction h with
  | plain hw => exact .plain hw
  | object hw hr hnamed _ ih => exact .object hw (ho _ _ hr) hnamed ih

theorem mem_refs_of_mem_shown (h : w ∈ o.shown) : w ∈ o.refs m.classes m.fibers := by
  cases o with
  | array | dict => exact h
  | enumerator e => exact List.mem_append_left _ h
  | _ => exact absurd h List.not_mem_nil

/-- What is in use keeps its text when garbage is collected. -/
theorem Nests.collected (h : m.Nests w) (hc : m.Collected m') (hretains : w.isRef = true → m.Retains w) :
    m'.Nests w := by
  induction h with
  | plain hw => exact .plain hw
  | @object w o hw hr hnamed _ ih =>
    replace hretains := hretains hw
    refine .object hw (hc.read w o hretains hr) hnamed fun x hx => ih x hx fun hx' => ?_
    exact hretains.field hr (mem_refs_of_mem_shown hx) hx'

/-- What a program that holds on to `v` does to objects, one thing at a time. It stores nothing in what leads to it. -/
inductive Forms (v : Value) : Machine → Machine → Prop
  | make {m m' : Machine} {o : Object} {w : Value} : Exec.alloc o m = .ok w m' → Forms v m m'
  | change {m : Machine} {w : Value} {o : Object} {f : Object → Object} : m.heap.read w.toRef = .ok o → (f o).Named →
      (∀ x ∈ (f o).shown, m.Nests x ∧ ¬ m.LeadsTo x w) → Forms v m (after (Exec.update w f) m)
  | collect {m m' : Machine} {c : Collection} : (v.isRef = true → m.Retains v) → Exec.collect m = .ok c m' → Forms v m m'
  | other {m m' : Machine} : m'.heap = m.heap → Forms v m m'

theorem Forms.nests (h : Forms v m m') (hi : m.heap.Inv) (hv : m.Nests v) : m'.heap.Inv ∧ m'.Nests v := by
  cases h with
  | make hrun =>
    obtain ⟨-, -, hinv, hkeeps, -⟩ := (alloc_keeps hi (Nat.lt_succ_self _) _).of_run hrun
    exact ⟨hinv, hv.kept hkeeps⟩
  | change hr hnamed hall => exact ⟨hi.update _ _, hv.update hr hnamed hall⟩
  | collect hretains hrun =>
    have hc := collect_collected hi hrun
    exact ⟨hc.heap, hv.collected hc hretains⟩
  | other heq =>
    rw [heq]
    exact ⟨hi, hv.kept fun _ _ hr => heq ▸ hr⟩

/-- A value that has a text goes on having one, whatever is made, changed and collected in the meantime. -/
theorem inspect_built (hi : m.heap.Inv) (hrun : ReflTransGen (Forms v) m m') (h : ∃ s, m.inspect v = .ok s) :
    ∃ s, m'.inspect v = .ok s := by
  suffices hall : m'.heap.Inv ∧ m'.Nests v from inspect_iff.2 hall.2
  induction hrun with
  | refl => exact ⟨hi, inspect_iff.1 h⟩
  | tail _ hstep ih => exact hstep.nests ih.1 ih.2

/-- An object that is made of values with texts has one from the start. -/
theorem inspect_made (hi : m.heap.Inv) (hnamed : o.Named) (hall : ∀ w ∈ o.shown, ∃ s, m.inspect w = .ok s)
    (hrun : Exec.alloc o m = .ok v m') : ∃ s, m'.inspect v = .ok s := by
  obtain ⟨hv, -, -, hkeeps, hr, -⟩ := (alloc_keeps hi (Nat.lt_succ_self _) o).of_run hrun
  exact inspect_iff.2 (.object hv hr hnamed fun w hw => (inspect_iff.1 (hall w hw)).kept hkeeps)

/-- An array that is pushed onto itself has no text any more. -/
theorem inspect_itself {es : Array Value} (hv : v.isRef = true) (hr : m.heap.read v.toRef = .ok (.array es))
    (hall : ∀ w ∈ es, ∃ s, m.inspect w = .ok s) :
    (after (Exec.appendElem v v) m).inspect v = .error .endless := by
  have hread (u : Value) : (after (Exec.appendElem v v) m).heap.read u.toRef = if
      u.toRef.page = v.toRef.page ∧ u.toRef.cell = v.toRef.cell then _ else m.heap.read u.toRef :=
    read_after_update v _ m u
  have hnew (u : Value) (hs : u.toRef.page = v.toRef.page ∧ u.toRef.cell = v.toRef.cell) {o : Object}
      (hu : m.heap.read u.toRef = .ok o) :
      (after (Exec.appendElem v v) m).heap.read u.toRef = .ok (.array (es.push v)) := by
    cases eq_of_sameCell hs hu hr
    rw [hread, if_pos hs, hu]
    rfl
  have hself : (after (Exec.appendElem v v) m).Shows v v :=
    ⟨hv, _, hnew v ⟨rfl, rfl⟩ hr, Array.mem_toList_iff.2 Array.mem_push_self⟩
  -- the array leads to itself and to what had a text before
  have hleads (u : Value) (hl : ReflTransGen (after (Exec.appendElem v v) m).Shows v u) : u = v ∨ m.Nests u := by
    induction hl with
    | refl => exact .inl rfl
    | @tail u w _ hs ih =>
      obtain ⟨hu, o, ho, hw⟩ := hs
      have hpushed (h : o = .array (es.push v)) : w = v ∨ m.Nests w := by
        subst h
        rcases Array.mem_push.1 (Array.mem_toList_iff.1 hw) with hold | hsame
        · exact .inr (inspect_iff.1 (hall w hold))
        · exact .inl hsame
      rcases ih with rfl | hn
      · exact hpushed (Except.ok.inj (ho.symm.trans (hnew u ⟨rfl, rfl⟩ hr)))
      · obtain ⟨o', hr', -, hall'⟩ := hn.object_of_isRef hu
        by_cases hsame : u.toRef.page = v.toRef.page ∧ u.toRef.cell = v.toRef.cell
        · exact hpushed (Except.ok.inj (ho.symm.trans (hnew u hsame hr')))
        · rw [hread, if_neg hsame, hr'] at ho
          cases ho
          exact .inr (hall' w hw)
  have hcomplete : (after (Exec.appendElem v v) m).Complete v := by
    intro u hl hu
    rcases hleads u hl with rfl | hn
    · exact ⟨_, hnew u ⟨rfl, rfl⟩ hr, trivial⟩
    · obtain ⟨o, ho, hnamed, -⟩ := hn.object_of_isRef hu
      by_cases hsame : u.toRef.page = v.toRef.page ∧ u.toRef.cell = v.toRef.cell
      · exact ⟨_, hnew u hsame ho, trivial⟩
      · exact ⟨o, by rw [hread, if_neg hsame, ho], hnamed⟩
  rcases inspect_cases hcomplete with ⟨hn, -⟩ | ⟨-, hi⟩
  · exact absurd (TransGen.single hself) hn.acyclic
  · exact hi

end Machine

end RubyMachine
