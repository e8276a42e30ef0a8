import RubyMachine.Proofs.Scope.Moves

/-! Escape is transparent: a frame that is moved to the heap shows the same locals and receivers as before, to
itself and to every other frame, and its copy refers to no stack. -/

namespace RubyMachine

open Exec

namespace Machine

variable {m m' m'' : Machine} {fs : List Nat} {v w x top : Value} {s : Scope} {b f n : Nat} {c : Nat → Value}

/-! ## The copy of a frame -/

/-- A scope that is laid out like a frame and has the control words `c`. -/
structure CopyOf (m : Machine) (f : Nat) (s : Scope) (c : Nat → Value) : Prop where
  base : s.base = m.slotsAt f + 2
  size : s.words.size = s.base + 8
  first : s.words.getD 0 .nil = m.slot (f - 1)
  low : ∀ i ≤ m.slotsAt f, s.words.getD (i + 1) .nil = m.slot (f - m.slotsAt f - 1 + i)
  word : ∀ i < 8, s.word i = c i

theorem CopyOf.put (h : m.CopyOf f s c) {j : Nat} (hj : j < 8) :
    m.CopyOf f (s.put (s.base + j) x) (Function.update c j x) := by
  have hb := h.base
  have hz := h.size
  have hk : s.base + j < s.words.size := by omega
  refine ⟨hb, by rw [Scope.size_put, Scope.base_put, hz], ?_, fun i hi => ?_, fun i hi => ?_⟩
  · rw [Scope.getD_put hk, if_neg (by omega), h.first]
  · rw [Scope.getD_put hk, if_neg (by omega), h.low i hi]
  · rw [Scope.word, Scope.getD_put hk, Scope.base_put]
    split_ifs with he
    · rw [show i = j by omega, Function.update_self]
    · rw [Function.update_of_ne (by omega), ← h.word i hi, Scope.word]

theorem CopyOf.layer (h : m.CopyOf f s c) (hc : c 2 = m.slot (f + 2)) (hf : m.slotsAt f < f) :
    s.slotCount = m.slotsAt f ∧ s.receiver = m.slot (f - 1) ∧ s.layer = m.layerAt f := by
  have hn : s.slotCount = m.slotsAt f := by rw [Scope.slotCount, h.word 2 (by decide), hc, slotsAt]
  have hr : s.receiver = m.slot (f - 1) := by
    have := h.low (m.slotsAt f) le_rfl
    rwa [show m.slotsAt f + 1 = s.base - 1 by have := h.base; omega,
      show f - m.slotsAt f - 1 + m.slotsAt f = f - 1 by omega] at this
  refine ⟨hn, hr, ?_⟩
  rw [Scope.layer, layerAt, hr, hn]
  refine congrArg (Layer.mk _) (List.map_congr_left fun i hi => ?_)
  exact h.low i (List.mem_range.1 hi).le

theorem CopyOf.shaped (h : m.CopyOf f s c) (hp : m.Placed f) (hc : c 2 = m.slot (f + 2)) (hself : s.self = v)
    (henv : c 1 = v) (hlocal : ∀ i < 8, (c i).isLocal = false) : s.Shaped v := by
  obtain ⟨hn, hr, -⟩ := h.layer hc hp.low
  refine ⟨hself, by rw [hn, h.base], h.size, ?_, ?_, by rw [h.first, hr], fun i hi => ?_⟩
  · rw [h.word 2 (by decide), hc]
    exact hp.flags
  · rw [h.word 1 (by decide), henv]
  · rw [h.word i hi]
    exact hlocal i hi

theorem scopeWords_apply (hp : m.Placed f) (hc : m.isCode f = true) : ∃ ws,
    scopeWords f (m.slotsAt f) (m.slot (f - 1)) m = .ok ws m ∧
      m.CopyOf f ⟨ws, scopeBase (m.slotsAt f), .nil⟩ fun i => m.slot (f + i) := by
  have hlow := hp.low
  have hhigh := hp.high
  rw [frameEnd_code hc] at hhigh
  let at' (i : Nat) : Value := m.slot (f - m.slotsAt f - 1 + i)
  refine ⟨(m.slot (f - 1) :: (List.range (m.slotsAt f + 1 + Frame.words)).map at').toArray, ?_, ?_⟩
  · have hall : (List.range (m.slotsAt f + 1 + Frame.words)).mapM (fun (i : Nat) =>
        (liftM (m.context.stack.word? ((f : Int) - m.slotsAt f - 1 + i)) : Exec Value)) m =
        .ok ((List.range (m.slotsAt f + 1 + Frame.words)).map at') m := by
      refine mapM_apply fun i hi => ?_
      have := List.mem_range.1 hi
      have hw : ((f : Int) - m.slotsAt f - 1 + i) = ((f - m.slotsAt f - 1 + i : Nat) : Int) := by omega
      exact word_apply_of hw (by simp only [Frame.words] at this; omega)
    rw [scopeWords]
    dsimp only
    rw [bind_of_ok (show Exec.stack m = .ok m.context.stack m from rfl), if_neg (by simp only [Frame.words]; omega)]
    rw [Int.toNat_natCast, bind_of_ok hall]
    rfl
  · have hget (k : Nat) (hk : k < m.slotsAt f + 1 + Frame.words) :
        (m.slot (f - 1) :: (List.range (m.slotsAt f + 1 + Frame.words)).map at').toArray.getD (k + 1) .nil = at' k := by
      rw [Array.getD_eq_getD_getElem?, List.getElem?_toArray, List.getElem?_cons_succ, List.getElem?_map,
        List.getElem?_range hk, Option.map_some, Option.getD_some]
    refine ⟨rfl, ?_, rfl, fun i hi => hget i (by simp only [Frame.words]; omega), fun i hi => ?_⟩
    · simp only [List.size_toArray, List.length_cons, List.length_map, List.length_range, scopeBase, Frame.words]
    · rw [Scope.word, show scopeBase (m.slotsAt f) + i = m.slotsAt f + 1 + i + 1 by unfold scopeBase; omega]
      exact (hget _ (by simp only [Frame.words]; omega)).trans (congrArg m.slot (by omega))

/-! ## A scope under construction -/

/-- In a place that was vacant in `m` there is a scope laid out like a frame of `m`; else nothing has changed. -/
structure Builds (m m' : Machine) (f : Nat) (v : Value) (c : Nat → Value) : Prop where
  rest : m'.withHeap m.heap = m
  inv : m'.heap.Inv
  vacant : ∀ o, m.heap.read v.toRef ≠ .ok o
  objects : m.KeepsObjects m'
  scope : ∃ s, m'.scope? v = some s ∧ s.self = v ∧ m.CopyOf f s c
  grows : m'.heap.pages.size ≤ m.heap.pages.size + 1

namespace Builds

theorem context (h : m.Builds m' f v c) : m'.context = m.context := context_of_withHeap h.rest

theorem rewritten (h : m.Builds m' f v c) {c' : Nat → Value} (hr : m'.Rewritten m'' v s) (hself : s.self = v)
    (hc : m.CopyOf f s c') : m.Builds m'' f v c' where
  rest := by rw [← h.rest, ← hr.rest]; rfl
  inv := hr.inv
  vacant := h.vacant
  objects := h.objects.rewritten h.vacant hr
  scope := ⟨s, hr.here, hself, hc⟩
  grows := hr.size.trans_le h.grows

theorem setWordAt (h : m.Builds m' f v c) {i : Int} {j : Nat} (hi : i = j) (hj : j < 8) (x : Value) :
    ∃ m'', (Env.heap v).setWordAt i x m' = .ok () m'' ∧ m.Builds m'' f v (Function.update c j x) := by
  obtain ⟨s, hs, hself, hc⟩ := h.scope
  have := hc.size
  obtain ⟨m'', hrun, hr⟩ := setWordAt_heap (x := x) (i := i) (k := s.base + j) h.inv hs (by omega) (by omega)
  exact ⟨m'', hrun, h.rewritten hr hself (hc.put hj)⟩

theorem wordAt (h : m.Builds m' f v c) {i : Int} {j : Nat} (hi : i = j) (hj : j < 8) :
    (Env.heap v).wordAt i m' = .ok (c j) m' := by
  obtain ⟨s, hs, -, hc⟩ := h.scope
  have := hc.size
  rw [← hc.word j hj]
  exact wordAt_heap hs (by omega) (by omega)

theorem linkMethod (h : m.Builds m' f v c)
    (ho : (c 4).isNil = true ∧ top = v ∨ (c 4).isNil = false ∧ m.Enclosed (c 4) top) :
    ∃ m'', Exec.linkMethod v m' = .ok () m'' ∧ m.Builds m'' f v (Function.update c 3 top) := by
  have hout : (Env.heap v).outer m' = .ok (c 4) m' := h.wordAt rfl (by decide)
  rcases ho with ⟨hn, rfl⟩ | ⟨hn, ho⟩
  · obtain ⟨m'', hrun, hb⟩ := h.setWordAt (i := Frame.methodWord) (j := 3) rfl (by decide) top
    refine ⟨m'', ?_, hb⟩
    rw [Exec.linkMethod, bind_of_ok hout, if_pos hn, hrun]
  · obtain ⟨s, hs, hsh, rfl⟩ := (ho.mono h.objects.scopes).scope
    obtain ⟨m'', hrun, hb⟩ := h.setWordAt (i := Frame.methodWord) (j := 3) rfl (by decide) (s.word 3)
    refine ⟨m'', ?_, hb⟩
    have hm : (Env.heap (c 4)).method m' = .ok (s.word 3) m' := scope_wordAt hs hsh rfl (by decide)
    rw [Exec.linkMethod, bind_of_ok hout, if_neg (by rw [hn]; decide), bind_of_ok (asScope_apply hs), bind_of_ok hm, hrun]

end Builds

/-- A new scope that refers to itself. -/
theorem alloc_builds (hi : m.heap.Inv) (hn : m.heap.pages.size < n) (hc : m.CopyOf f s c) :
    Ends (alloc (.scope s)) m n fun ref m' => ref.isRef = true ∧ ∃ m'', update ref (fun
      | .scope s => .scope { s with self := ref }
      | o => o) m' = .ok () m'' ∧ m.Builds m'' f ref c := by
  refine alloc_ends hi hn fun ref h' h => ?_
  have hs : (m.withHeap h').scope? ref = some s := scope?_eq_some.2 ⟨h.isRef, h.read⟩
  have hr := rewritten_update h.inv hs (f := fun
    | .scope s => .scope { s with self := ref }
    | o => o) rfl
  refine ⟨h.isRef, _, update_apply .., ?_⟩
  exact {
    rest := rfl
    inv := hr.inv
    vacant := h.vacant
    objects := KeepsObjects.rewritten (fun v o => h.kept v.toRef o) h.vacant hr
    scope := ⟨_, hr.here, rfl, hc.base, hc.size, hc.first, hc.low, hc.word⟩
    grows := hr.size.trans_le h.grows }

/-! ## One frame -/

theorem Moved.of_objects (hw : m.WellFormed fs) (hrest : m'.withHeap m.heap = m) (hi : m'.heap.Inv)
    (ho : m.KeepsObjects m') : m.Moved m' fs b := by
  have hc := context_of_withHeap hrest
  have hslot (i : Nat) : m'.slot i = m.slot i := by rw [Machine.slot, hc, Machine.slot]
  refine ⟨?_, by rw [hc], by rw [hc], fun i => .inl (hslot i), hi, ho, fun _ _ => Sees.mono ho.scopes hc, ?_⟩
  · rw [withMemory, ← hc]
    exact hrest
  · intro f hf hr
    rw [hslot] at hr ⊢
    obtain ⟨top, ht⟩ := (hw.linked f hf).copy hr
    exact ⟨top, ht.mono ho.scopes⟩

theorem Builds.moved (h : m.Builds m' f v c) (hw : m.WellFormed fs) : m.Moved m' fs b :=
  .of_objects hw h.rest h.inv h.objects

theorem alloc_keeps (hi : m.heap.Inv) (hn : m.heap.pages.size < n) (o : Object) :
    Ends (alloc o) m n fun p m' => p.isRef = true ∧ m'.withHeap m.heap = m ∧ m'.heap.Inv ∧ m.KeepsObjects m' ∧
      m'.heap.read p.toRef = .ok o ∧ m'.heap.pages.size ≤ m.heap.pages.size + 1 :=
  alloc_ends hi hn fun _ _ h => ⟨h.isRef, rfl, h.inv, fun v o => h.kept v.toRef o, h.read, h.grows⟩

/-- The scope under construction is no complete one as long as it holds the word of a block. -/
theorem Moved.rewritten (h : m.Moved m' fs b) (hvac : ∀ o, m.heap.read v.toRef ≠ .ok o) (hr : m'.Rewritten m'' v s)
    (hk : m'.KeepsScopes m'') : m.Moved m'' fs b where
  rest := by
    show (m''.withHeap m'.heap).withMemory m = m
    rw [hr.rest, h.rest]
  len := by rw [hr.context, h.len]
  capacity := by rw [hr.context, h.capacity]
  slot i := by
    rw [show m''.slot i = m'.slot i by rw [Machine.slot, hr.context, Machine.slot]]
    exact h.slot i
  inv := hr.inv
  objects := h.objects.rewritten hvac hr
  sees v ls hs := (h.sees v ls hs).mono hk hr.context
  copy f hf hs := by
    have he : m''.slot (f + 1) = m'.slot (f + 1) := by rw [Machine.slot, hr.context, Machine.slot]
    rw [he] at hs ⊢
    obtain ⟨top, ht⟩ := h.copy f hf hs
    exact ⟨top, ht.mono hk⟩

/-- Something is seen from around a frame that has no copy. -/
theorem WellFormed.sees_outer (hw : m.WellFormed fs) (hf : m.CodeFrame fs f) (hr : (m.slot (f + 1)).isRef = false) :
    ∃ ls, m.Sees fs (m.slot (f + 4)) ls := by
  have hnamed := (hw.linked f hf).named
  obtain ⟨ls, hs⟩ := hw.sees (Value.isFrame_frameAt f) (hnamed.symm ▸ hf)
  rcases hs.of_frame (Value.isFrame_frameAt f) with ⟨-, ls', -, ho⟩ | ⟨hr', -⟩
  · exact ⟨ls', hnamed ▸ ho⟩
  · rw [hnamed, hr] at hr'
    cases hr'

/-- What is seen goes on to be seen when a frame gets a copy that shows what the frame shows. -/
theorem WellFormed.sees_poke (hw : m.WellFormed fs) (hf : m.CodeFrame fs f) (hep : (m.slot (f + 1)).isRef = false)
    (hv : v.isRef = true)
    (hcopy : ∀ ls, m.Sees fs (m.slot (f + 4)) ls → (m.poke (f + 1) v).Sees fs v (m.layerAt f :: ls)) {w : Value}
    {ls : List Layer} (hs : m.Sees fs w ls) : (m.poke (f + 1) v).Sees fs w ls := by
  have hslot (i : Nat) (hi : i ≠ f + 1) : (m.poke (f + 1) v).slot i = m.slot i := by
    rw [slot_poke, if_neg hi]
  have hframe (g : Nat) (hg : g ∈ fs) : m.KeepsFrame (m.poke (f + 1) v) g := fun i hlo hhi hne =>
    hslot i (hw.ne_copy hf hg hlo hhi hne)
  have hcode (g : Nat) (hg : m.CodeFrame fs g) : (m.poke (f + 1) v).CodeFrame fs g :=
    ⟨hg.1, (hframe g hg.1).isCode.trans hg.2⟩
  induction hs with
  | nil hn => exact .nil hn
  | @frame w ls hu hg hr ho ih =>
    by_cases hwf : w.toFrame = f
    · have hv' : (m.poke (f + 1) v).slot (w.toFrame + 1) = v := by rw [hwf, slot_poke, if_pos rfl]
      refine .moved hu (hcode _ hg) (by rw [hv', hv]) ?_
      rw [hv', hwf]
      exact hcopy ls (hwf ▸ ho)
    · have hk := hframe _ hg.1
      rw [← hk.layerAt (hw.frames.placed hg.1).low]
      refine .frame hu (hcode _ hg) ?_ ?_
      · rw [hslot _ (by omega)]
        exact hr
      · rw [hk.slot (k := 4) (by rw [frameEnd_code hg.2]; omega) (by decide)]
        exact ih
  | @moved w ls hu hg hr ho ih =>
    have hne : w.toFrame ≠ f := by
      intro hwf
      rw [hwf, hep] at hr
      cases hr
    have he := hslot (w.toFrame + 1) (by omega)
    exact .moved hu (hcode _ hg) (he ▸ hr) (he ▸ ih)
  | scope hs hsh _ ih => exact .scope hs hsh ih

/-- The frame then refers to its copy, which shows what the frame showed. -/
theorem Moved.redirect (h : m.Moved m' fs f) (hw : m.WellFormed fs) (hf : m.CodeFrame fs f)
    (hep : (m.slot (f + 1)).isRef = false) (hs : m'.scope? v = some s) (hl : s.layer = m.layerAt f)
    (he : m'.Enclosed v top) (hout : ∀ ls, m.Sees fs (m.slot (f + 4)) ls → m'.Sees fs (s.word 4) ls) :
    m.Moved (m'.poke (f + 1) v) fs (f + 1) ∧
      ∀ u ls, u.isFrame = true → u.toFrame = f → m.Sees fs u ls → (m'.poke (f + 1) v).Sees fs v ls := by
  have hk : m'.KeepsScopes (m'.poke (f + 1) v) := fun _ _ hs _ => hs
  have hep' : (m'.slot (f + 1)).isRef = false := by rwa [h.slot_of_le (Nat.lt_succ_self f)]
  have hcopy (ls) (ho : m'.Sees fs (m'.slot (f + 4)) ls) : (m'.poke (f + 1) v).Sees fs v (m'.layerAt f :: ls) := by
    have hl' : m'.layerAt f = s.layer := by
      rw [hl, (h.keepsFrame hw hf.1).layerAt (hw.frames.placed hf.1).low]
    rw [hl']
    refine he.sees_mono hk ?_
    obtain ⟨s', hs', hsh, -⟩ := he.scope
    cases hs.symm.trans hs'
    refine .scope hs hsh ?_
    obtain ⟨ls', ho'⟩ := hw.sees_outer hf hep
    rw [h.control hw hf (k := 4) (by decide) (by decide)] at ho
    cases ho.unique (h.sees _ _ ho')
    exact hout _ ho'
  have hsees (w ls) (hs : m.Sees fs w ls) : (m'.poke (f + 1) v).Sees fs w ls :=
    (h.wellFormed hw).sees_poke ((h.codeFrame hw).2 hf) hep' he.isRef hcopy (h.sees w ls hs)
  refine ⟨⟨h.rest, h.len, h.capacity, fun i => ?_, h.inv, h.objects, hsees, ?_⟩, ?_⟩
  · rw [slot_poke]
    split_ifs with hi
    · exact .inr ⟨hi ▸ hep, f, hf, Nat.lt_succ_self f, hi⟩
    · exact (h.slot i).imp_right fun ⟨hr, g, hg, hlt, hi⟩ => ⟨hr, g, hg, hlt.trans (Nat.lt_succ_self f), hi⟩
  · intro g hg hr
    rw [slot_poke] at hr ⊢
    split_ifs at hr ⊢ with hi
    · exact ⟨top, he.mono hk⟩
    · obtain ⟨t, ht⟩ := h.copy g hg hr
      exact ⟨t, ht.mono hk⟩
  · intro u ls hu hn hs
    rcases (hsees _ _ hs).of_frame hu with ⟨hr, -⟩ | ⟨-, ho⟩
    · rw [hn, slot_poke, if_pos rfl, he.isRef] at hr
      cases hr
    · rwa [hn, slot_poke, if_pos rfl] at ho

/-! ## Whole chains -/

/-- A word that may name what is around a frame below slot `b`. -/
def Linkable (m : Machine) (fs : List Nat) (b : Nat) (v : Value) : Prop :=
  v.isNil = true ∨ v.isFrame = true ∧ m.CodeFrame fs v.toFrame ∧ v.toFrame < b ∨ ∃ top, m.Enclosed v top

/-- The environment `v` is the scope `w` now, and shows what it showed. -/
structure Escaped (m m' : Machine) (fs : List Nat) (b : Nat) (v w : Value) : Prop where
  moved : m.Moved m' fs b
  seen : ∀ ls, m.Sees fs v ls → m'.Sees fs w ls
  link : v.isNil = true ∧ w.isNil = true ∨ v.isNil = false ∧ ∃ top, m'.Enclosed w top
  copy : v.isFrame = true → m'.slot (v.toFrame + 1) = w

theorem Escaped.weaken {b' : Nat} (h : m.Escaped m' fs b v w) (hb : b ≤ b') : m.Escaped m' fs b' v w :=
  { h with moved := { h.moved with slot := fun i => (h.moved.slot i).imp_right fun ⟨hr, f, hf, hlt, hi⟩ =>
      ⟨hr, f, hf, hlt.trans_le hb, hi⟩ } }

theorem Moved.escaped {b' : Nat} (h : m.Moved m' fs b) (hw : m.WellFormed fs) (he : m'.Escaped m'' fs b' v w)
    (hb : b ≤ b') : m.Escaped m'' fs b' v w where
  moved := h.trans hw he.moved hb
  seen ls hs := he.seen ls (h.sees v ls hs)
  link := he.link
  copy := he.copy

/-- The frame at `f` is nested in nothing, and `top` is its own copy `v`; or what it is nested in has a copy that leads
to `top`. -/
def Around (m : Machine) (f : Nat) (v top : Value) : Prop :=
  (m.slot (f + 4)).isNil = true ∧ top = v ∨ ∃ outer, m.Enclosed outer top ∧
    (m.slot (f + 4) = outer ∨ (m.slot (f + 4)).isFrame = true ∧ m.slot ((m.slot (f + 4)).toFrame + 1) = outer)

/-- The word for the block of a frame becomes that of its copy: a block that is written in a frame is a new Proc, which
runs in the copy of that frame. -/
def Conveys (m : Machine) (w w' : Value) : Prop :=
  w.isBlock = false ∧ w' = w ∨
    w.isBlock = true ∧ (m.slot (w.toBlock.2 + 1)).isRef = true ∧ w'.isRef = true ∧ ∃ self,
      m.heap.read w'.toRef = .ok (.proc { body := .code w.toBlock.1, self, outer := m.slot (w.toBlock.2 + 1) })

/-- The scope at `v` has the words of a frame, but for those that link it to others. -/
structure Doubles (m : Machine) (f : Nat) (v : Value) (s : Scope) : Prop where
  scope : m.scope? v = some s
  shaped : s.Shaped v
  size : s.slotCount = m.slotsAt f
  slot : ∀ i < m.slotsAt f, s.slot i = m.slot (f - m.slotsAt f - 1 + i)
  code : s.word 6 = m.slot (f + 6)
  block : m.Conveys (m.slot (f + 7)) (s.word 7)

theorem CopyOf.doubles (hc : m.CopyOf f s c) (hk : m.KeepsFrame m' f) (hf : m.isCode f = true) (hp : m.Placed f)
    (hs : m'.scope? v = some s) (hsh : s.Shaped v) (h2 : c 2 = m.slot (f + 2)) (h6 : c 6 = m.slot (f + 6))
    (h7 : m'.Conveys (m.slot (f + 7)) (c 7)) : m'.Doubles f v s := by
  have hend := frameEnd_code hf
  have hlow := hp.low
  refine ⟨hs, hsh, ?_, fun i hi => ?_, ?_, ?_⟩
  · rw [hk.slotsAt]
    exact (hc.layer h2 hlow).1
  · rw [hk.slotsAt] at hi ⊢
    rw [hk _ (by omega) (by omega) (by omega), ← hc.low i hi.le, Scope.slot]
  · rw [hk.slot (k := 6) (by omega) (by decide), hc.word 6 (by decide), h6]
  · rw [hk.slot (k := 7) (by omega) (by decide), hc.word 7 (by decide)]
    exact h7

/-- A property of machines that concerns frames, complete scopes and objects other than scopes only, and stays when a
complete scope that no frame has yet takes the place of a frame. -/
structure Upheld (P : Machine → Prop) (fs : List Nat) : Prop where
  quiet : ∀ {m m' : Machine}, m.WellFormed fs → P m → m'.context = m.context → m.KeepsScopes m' → m.KeepsOthers m' →
    m'.heap.Inv → P m'
  redirect : ∀ {m : Machine} {f : Nat} {v top : Value} {s : Scope}, m.WellFormed fs → P m → m.CodeFrame fs f →
    (m.slot (f + 1)).isRef = false → m.Enclosed v top → (∀ g, m.CodeFrame fs g → m.slot (g + 1) ≠ v) → m.Around f v top →
    m.Doubles f v s → P (m.poke (f + 1) v)

/-! ## What is around a frame -/

/-- The frame `f` has no copy yet, and what it is nested in stands on the heap as `outer`. -/
structure Readied (m : Machine) (fs : List Nat) (f : Nat) (outer : Value) : Prop where
  wellFormed : m.WellFormed fs
  frame : m.CodeFrame fs f
  fresh : (m.slot (f + 1)).isRef = false
  seen : ∀ ls, m.Sees fs (m.slot (f + 4)) ls → m.Sees fs outer ls
  nested : (m.slot (f + 4)).isNil = true ∧ outer.isNil = true ∨ (∃ top, m.Enclosed outer top) ∧
    (m.slot (f + 4) = outer ∨ (m.slot (f + 4)).isFrame = true ∧ m.slot ((m.slot (f + 4)).toFrame + 1) = outer)

theorem Escaped.readied {outer : Value} (h : m.Escaped m' fs f (m.slot (f + 4)) outer) (hw : m.WellFormed fs)
    (hf : m.CodeFrame fs f) (hr : (m.slot (f + 1)).isRef = false)
    (hsame : (m.slot (f + 4)).isRef = true → outer = m.slot (f + 4)) : m'.Readied fs f outer := by
  have hword : m'.slot (f + 4) = m.slot (f + 4) := h.moved.control hw hf (by decide) (by decide)
  refine ⟨h.moved.wellFormed hw, (h.moved.codeFrame hw).2 hf, ?_, fun ls hs => ?_, ?_⟩
  · rw [h.moved.slot_of_le (Nat.lt_succ_self f)]
    exact hr
  · obtain ⟨ls', ho⟩ := hw.sees_outer hf hr
    rw [hword] at hs
    cases hs.unique (h.moved.sees _ _ ho)
    exact h.seen _ ho
  · rw [hword]
    rcases h.link with hn | ⟨hn, top, ht⟩
    · exact .inl hn
    refine .inr ⟨⟨top, ht⟩, ?_⟩
    rcases (hw.linked f hf).outer with hn' | ⟨hf', -⟩ | ⟨t, ht'⟩
    · rw [hn'] at hn; cases hn
    · exact .inr ⟨hf', h.copy hf'⟩
    · exact .inl (hsame ht'.isRef).symm

/-- The outermost scope around a frame whose copy is `v`: the copy itself, if the frame is nested in nothing. -/
def Tops (m : Machine) (outer v top : Value) : Prop := outer.isNil = true ∧ top = v ∨ m.Enclosed outer top

theorem Tops.isLocal (h : m.Tops x v top) (hv : v.isRef = true) : x.isLocal = false ∧ top.isLocal = false := by
  rcases h with ⟨hn, rfl⟩ | ho
  · rw [Value.isNil, beq_iff_eq] at hn
    exact ⟨by rw [hn, Value.isLocal_nil], Value.isLocal_of_isRef hv⟩
  · exact ⟨Value.isLocal_of_isRef ho.isRef, Value.isLocal_of_isRef ho.outermost.isRef⟩

theorem Readied.tops {outer : Value} (h : m.Readied fs f outer) (v : Value) : ∃ top, m.Tops outer v top := by
  rcases h.nested with ⟨-, hn⟩ | ⟨⟨top, ht⟩, -⟩
  · exact ⟨v, .inl ⟨hn, rfl⟩⟩
  · exact ⟨top, .inr ht⟩

theorem Readied.around {outer : Value} (h : m.Readied fs f outer) (h' : m.Moved m' fs f) (ht : m.Tops outer v top) :
    m'.Around f v top := by
  rw [Around, h'.control h.wellFormed h.frame (by decide) (by decide)]
  rcases h.nested with ⟨hn, hno⟩ | ⟨⟨t, ho⟩, hcopy⟩
  · rcases ht with ⟨-, rfl⟩ | ho
    · exact .inl ⟨hn, rfl⟩
    · rw [Value.isNil_of_isRef ho.isRef] at hno; cases hno
  · rcases ht with ⟨hno, -⟩ | ho'
    · rw [Value.isNil_of_isRef ho.isRef] at hno; cases hno
    · refine .inr ⟨outer, h'.enclosed ho', hcopy.imp_right fun ⟨hf, hs⟩ => ⟨hf, ?_⟩⟩
      rw [h'.slot_of_isRef (by rw [hs]; exact ho.isRef), hs]

/-! ## Pages -/

/-- The pages that there are, and two for each frame below slot `b` that has no copy. -/
def demand (m : Machine) (fs : List Nat) (b : Nat) : Nat :=
  m.heap.pages.size + 2 * fs.countP fun f => f < b && !(m.slot (f + 1)).isRef

theorem le_demand (m : Machine) (fs : List Nat) (b : Nat) : m.heap.pages.size ≤ m.demand fs b := Nat.le_add_right _ _

theorem demand_le_length (m : Machine) (fs : List Nat) (b : Nat) :
    m.demand fs b ≤ m.heap.pages.size + 2 * fs.length :=
  Nat.add_le_add_left (Nat.mul_le_mul_left _ List.countP_le_length) _

theorem demand_le {k : Nat} (hc : m'.context = m.context) (hp : m'.heap.pages.size ≤ m.heap.pages.size + k) :
    m'.demand fs b ≤ m.demand fs b + k := by
  have hslot (i : Nat) : m'.slot i = m.slot i := by rw [slot, hc, slot]
  simp only [demand, hslot]
  omega

theorem countP_add_le (p q p' q' : Nat → Bool) {l : List Nat}
    (h : ∀ g ∈ l, (p g).toNat + (q g).toNat ≤ (p' g).toNat + (q' g).toNat) :
    l.countP p + l.countP q ≤ l.countP p' + l.countP q' := by
  induction l with
  | nil => exact le_rfl
  | cons g l ih =>
    have hg := h g List.mem_cons_self
    have hl := ih fun g hg => h g (List.mem_cons_of_mem _ hg)
    have hcount (r : Nat → Bool) : (g :: l).countP r = l.countP r + (r g).toNat := by
      rw [List.countP_cons]
      cases r g <;> rfl
    simp only [hcount]
    omega

/-- A frame that has no copy counts as soon as it lies below. -/
theorem demand_succ_le (hf : f ∈ fs) (hr : (m.slot (f + 1)).isRef = false) (hb : f < b) :
    m.demand fs f + 2 ≤ m.demand fs b := by
  have hone : 0 < fs.countP (· == f) := List.countP_pos_iff.2 ⟨f, hf, beq_self_eq_true f⟩
  have hle := countP_add_le (l := fs) (fun g => g < f && !(m.slot (g + 1)).isRef) (· == f)
    (fun g => g < b && !(m.slot (g + 1)).isRef) (fun _ => false) fun g _ => by
      rcases Nat.lt_trichotomy g f with h | rfl | h
      · simp [h, h.trans hb, h.ne]
      · simp [hb, hr]
      · simp [Nat.not_lt.2 h.le, beq_eq_false_iff_ne.2 h.ne']
  rw [List.countP_false, Function.const_apply] at hle
  unfold demand
  omega

/-- Frames from slot `f` on do not take more than they did. -/
theorem Moved.demand_add_le {b' : Nat} (h : m.Moved m' fs b') (hfb : f ≤ b) :
    m'.demand fs b + m.demand fs f ≤ m.demand fs b + m'.demand fs f := by
  have hle := countP_add_le (l := fs) (fun g => g < b && !(m'.slot (g + 1)).isRef)
    (fun g => g < f && !(m.slot (g + 1)).isRef) (fun g => g < b && !(m.slot (g + 1)).isRef)
    (fun g => g < f && !(m'.slot (g + 1)).isRef) fun g _ => by
      have hkept : (m.slot (g + 1)).isRef = true → m'.slot (g + 1) = m.slot (g + 1) := h.slot_of_isRef
      by_cases hg : g < f
      · simp [hg, hg.trans_le hfb, Nat.add_comm]
      · cases hr : (m.slot (g + 1)).isRef with
        | true => simp [hg, hkept hr, hr]
        | false => cases (m'.slot (g + 1)).isRef <;> simp [hg]
  unfold demand
  omega

theorem Moved.demand_le {b' : Nat} (h : m.Moved m' fs b') (hfb : f ≤ b) (hd : m'.demand fs f ≤ m.demand fs f) :
    m'.demand fs b ≤ m.demand fs b := by
  have := h.demand_add_le hfb
  omega

/-- A frame that got its copy no longer counts. -/
theorem Moved.demand_poke (h : m.Moved (m'.poke (f + 1) v) fs (f + 1)) (hf : f ∈ fs)
    (hr : (m.slot (f + 1)).isRef = false) (hb : f < b) (hv : v.isRef = true) (hd : m'.demand fs f ≤ m.demand fs f + 2) :
    (m'.poke (f + 1) v).demand fs b ≤ m.demand fs b := by
  have hadd := h.demand_add_le (show f + 1 ≤ b from hb)
  have hone := demand_succ_le hf hr (Nat.lt_add_one f)
  have hsame : (m'.poke (f + 1) v).demand fs (f + 1) ≤ m'.demand fs f := by
    refine Nat.add_le_add_left (Nat.mul_le_mul_left _ (List.countP_mono_left fun g _ hg => ?_)) _
    rw [Bool.and_eq_true, decide_eq_true_eq, slot_poke] at hg
    have hne : g ≠ f := by
      rintro rfl
      simp [hv] at hg
    rw [if_neg (by omega)] at hg
    rw [hg.2, Bool.and_true, decide_eq_true_eq]
    omega
  omega

/-! ## The copy takes the place of the frame -/

/-- The control words of the copy of a frame at `v`, but for that of the block: nothing called it, and it is linked to
the scopes around it. -/
def copyWords (m : Machine) (f : Nat) (v outer top : Value) : Nat → Value :=
  Function.update (Function.update (Function.update (Function.update (fun i => m.slot (f + i)) 0 .nil) 1 v) 4 outer) 3 top

/-- The words of a frame are copied to a new scope that is linked to the scopes around. The computation goes on with
the scope. -/
theorem Readied.copies {α : Type} {outer : Value} {k : Value → Exec α} {Q : α → Machine → Prop}
    (h : m.Readied fs f outer) (hn : m.heap.pages.size < n)
    (hk : ∀ ref top m', ref.isRef = true → m.Tops outer ref top → m.Builds m' f ref (m.copyWords f ref outer top) →
      Ends (k ref) m' n Q) :
    Ends (do
      let slots ← (Env.stack f).slotCount
      let words ← scopeWords f slots (← (Env.stack f).self)
      let ref ← alloc (.scope ⟨words, scopeBase slots.toNat, .nil⟩)
      update ref fun
        | .scope s => .scope { s with self := ref }
        | o => o
      (Env.heap ref).setWordAt Frame.prevWord .nil
      (Env.heap ref).setWordAt Frame.envWord ref
      (Env.heap ref).setWordAt Frame.outerWord outer
      linkMethod ref
      k ref) m n Q := by
  have hp := h.wellFormed.frames.placed h.frame.1
  have hhigh := hp.high
  rw [frameEnd_code h.frame.2] at hhigh
  have hcount : (Env.stack f).slotCount m = .ok (m.slotsAt f : Int) m :=
    slotCount_of (word_apply_of (k := f + 2) rfl (by omega)) hp.flags
  obtain ⟨ws, hws, hcopy⟩ := scopeWords_apply hp h.frame.2
  refine .step hcount (.step (reads_frame hp h.frame.2).self (.step hws
    (.bind (alloc_builds h.wellFormed.heap hn hcopy) fun ref m₁ hnew => ?_)))
  obtain ⟨href, m₂, hself, hb⟩ := hnew
  obtain ⟨m₃, hprev, hb⟩ := hb.setWordAt (i := Frame.prevWord) (j := 0) rfl (by decide) .nil
  obtain ⟨m₄, henv, hb⟩ := hb.setWordAt (i := Frame.envWord) (j := 1) rfl (by decide) ref
  obtain ⟨m₅, houter, hb⟩ := hb.setWordAt (i := Frame.outerWord) (j := 4) rfl (by decide) outer
  obtain ⟨top, ht⟩ := h.tops ref
  have ho : outer.isNil = true ∧ top = ref ∨ outer.isNil = false ∧ m.Enclosed outer top :=
    ht.imp_right fun ho => ⟨Value.isNil_of_isRef ho.isRef, ho⟩
  obtain ⟨m₆, hlink, hb⟩ := hb.linkMethod ho
  exact .step hself (.step hprev (.step henv (.step houter (.step hlink (hk ref top m₆ href ht hb)))))

/-- The scope at `v` in `m'` is the copy of the frame `f` of `m`, with the word `w` for its block, and no frame has it
yet. -/
structure Copied (m m' : Machine) (fs : List Nat) (f : Nat) (v outer top w : Value) : Prop where
  moved : m.Moved m' fs f
  scope : ∃ s, m'.scope? v = some s ∧ s.self = v ∧ m.CopyOf f s (Function.update (m.copyWords f v outer top) 7 w)
  block : m'.Conveys (m.slot (f + 7)) w
  unused : ∀ g, m'.CodeFrame fs g → m'.slot (g + 1) ≠ v
  demand : m'.demand fs f ≤ m.demand fs f + 2

/-- What the copy of a frame has for its block is good on any stack. -/
theorem Linked.isLocal_conveyed (hl : m.Linked fs f) (hc : m'.Conveys (m.slot (f + 7)) w) : w.isLocal = false := by
  rcases hc with ⟨hb, rfl⟩ | ⟨-, -, hr, -⟩
  · rcases hl.block with hn | hs | hr | hb'
    · rw [Value.isNil, beq_iff_eq] at hn
      rw [hn, Value.isLocal_nil]
    · exact Value.isLocal_of_isSymbol hs
    · exact Value.isLocal_of_isRef hr
    · rw [hb] at hb'; cases hb'.1
  · exact Value.isLocal_of_isRef hr

/-- The frame refers to its copy then. -/
theorem Readied.finish {P : Machine → Prop} {outer u : Value} (hP : Upheld P fs) (h : m.Readied fs f outer)
    (ht : m.Tops outer v top) (hc : m.Copied m' fs f v outer top w) (hp : P m') (hu : u.isFrame = true)
    (hu' : u.toFrame = f) :
    Ends (do setWord (f + Frame.envWord) v; return v) m' n fun r m'' => m.Escaped m'' fs (f + 1) u r ∧ P m'' ∧
      ∀ b, f < b → m''.demand fs b ≤ m.demand fs b := by
  obtain ⟨s, hs, hself, hcopy⟩ := hc.scope
  have hplaced := h.wellFormed.frames.placed h.frame.1
  have hlinked := h.wellFormed.linked f h.frame
  have hvr := isRef_of_scope? hs
  obtain ⟨houter, htop⟩ := ht.isLocal hvr
  have hsh : s.Shaped v := hcopy.shaped hplaced rfl hself rfl fun i hi => by
    interval_cases i
    · exact Value.isLocal_nil
    · exact Value.isLocal_of_isRef hvr
    · exact Value.isLocal_of_isFixnum hplaced.flags
    · exact htop
    · exact houter
    · exact Value.isLocal_of_isFixnum hlinked.position
    · exact Value.isLocal_of_isFixnum hlinked.code
    · exact hlinked.isLocal_conveyed hc.block
  have he : m'.Enclosed v top := by
    have h3 : s.word 3 = top := hcopy.word 3 (by decide)
    have h4 : s.word 4 = outer := hcopy.word 4 (by decide)
    rcases ht with ⟨hn, rfl⟩ | ho
    · exact .method hs hsh (h4 ▸ hn) h3
    · exact .block hs hsh (h4 ▸ hc.moved.enclosed ho) h3
  obtain ⟨hmoved, hsees⟩ := hc.moved.redirect h.wellFormed h.frame h.fresh hs (hcopy.layer rfl hplaced.low).2.2 he
    fun ls hls => (hcopy.word 4 (by decide)).symm ▸ hc.moved.sees _ _ (h.seen ls hls)
  have hhigh := hplaced.high
  rw [frameEnd_code h.frame.2] at hhigh
  have hset : setWord (f + Frame.envWord) v m' = .ok () (m'.poke (f + 1) v) :=
    setWord_apply rfl (by rw [hc.moved.capacity]; omega)
  refine .step hset (.of_ok rfl ⟨⟨hmoved, fun ls hls => hsees u ls hu hu' hls, .inr ⟨?_, top, ?_⟩, fun _ => ?_⟩, ?_,
    fun b hb => hmoved.demand_poke h.frame.1 h.fresh hb hvr hc.demand⟩)
  · exact Value.isNil_of_hasTag hu (by decide)
  · exact Enclosed.mono (show m'.KeepsScopes (m'.poke (f + 1) v) from fun _ _ hs _ => hs) he
  · rw [hu', slot_poke, if_pos rfl]
  · refine hP.redirect (hc.moved.wellFormed h.wellFormed) hp ((hc.moved.codeFrame h.wellFormed).2 h.frame) ?_ he hc.unused
      (h.around hc.moved ht) (hcopy.doubles (hc.moved.keepsFrame h.wellFormed h.frame.1) h.frame.2 hplaced hs hsh rfl rfl
        hc.block)
    rw [hc.moved.slot_of_le (Nat.lt_succ_self f)]
    exact h.fresh

/-! ## The block of a frame -/

/-- What was vacant is the copy of no frame. -/
theorem WellFormed.ne_vacant (hw : m.WellFormed fs) (hvac : ∀ o, m.heap.read v.toRef ≠ .ok o) (hv : v.isRef = true)
    (hf : m.CodeFrame fs f) : m.slot (f + 1) ≠ v := by
  rintro rfl
  obtain ⟨top, ht⟩ := (hw.linked f hf).copy hv
  obtain ⟨s, hs, -⟩ := ht.scope
  exact hvac _ (scope?_eq_some.1 hs).2

/-- Any other word for a block is copied as it is. -/
theorem Readied.keepsBlock {P : Machine → Prop} {outer : Value} (hP : Upheld P fs) (h : m.Readied fs f outer) (hp : P m)
    (hv : v.isRef = true) (hb : m.Builds m' f v (m.copyWords f v outer top)) (hnb : (m.slot (f + 7)).isBlock = false) :
    ∃ m'', (Env.heap v).setWordAt Frame.blockWord (m.slot (f + 7)) m' = .ok () m'' ∧
      m.Copied m'' fs f v outer top (m.slot (f + 7)) ∧ P m'' := by
  obtain ⟨m'', hrun, hb⟩ := hb.setWordAt (i := Frame.blockWord) (j := 7) rfl (by decide) (m.slot (f + 7))
  have hmoved : m.Moved m'' fs f := hb.moved h.wellFormed
  refine ⟨m'', hrun, ⟨hmoved, hb.scope, .inl ⟨hnb, rfl⟩, fun g hg => ?_, demand_le hb.context (hb.grows.trans (by omega))⟩,
    hP.quiet h.wellFormed hp hb.context hb.objects.scopes hb.objects.others hb.inv⟩
  rw [slot, hb.context, ← slot]
  exact h.wellFormed.ne_vacant hb.vacant hv ((hmoved.codeFrame h.wellFormed).1 hg)

/-- The frame that a block of a frame is written in lies below. -/
theorem Linked.home (hl : m.Linked fs f) (hb : (m.slot (f + 7)).isBlock = true) :
    m.CodeFrame fs (m.slot (f + 7)).toBlock.2 ∧ (m.slot (f + 7)).toBlock.2 < f := by
  rcases hl.block with hn | hn | hn | hn
  · rw [Value.isNil_of_hasTag hb (by decide)] at hn; cases hn
  · rw [show Value.isSymbol _ = false from Value.hasTag_of_ne hb (by decide)] at hn; cases hn
  · rw [show Value.isRef _ = false from Value.hasTag_of_ne hb (by decide)] at hn; cases hn
  · exact hn.2

/-- A scope that holds the word of a block is not complete, and so the word can be replaced. -/
theorem Moved.setsBlock {P : Machine → Prop} (hP : Upheld P fs) (hw : m.WellFormed fs) (h : m.Moved m' fs f) (hp : P m')
    (hvac : ∀ o, m.heap.read v.toRef ≠ .ok o) (hs : m'.scope? v = some s) (hself : s.self = v) (hc : m.CopyOf f s c)
    (hb : (c 7).isBlock = true) (x : Value) :
    ∃ m'', (Env.heap v).setWordAt Frame.blockWord x m' = .ok () m'' ∧ m.Moved m'' fs f ∧ P m'' ∧
      m''.context = m'.context ∧ m''.heap.pages.size = m'.heap.pages.size ∧ m'.KeepsOthers m'' ∧
      (∃ s, m''.scope? v = some s ∧ s.self = v ∧ m.CopyOf f s (Function.update c 7 x)) ∧
      ∀ g, m''.CodeFrame fs g → m''.slot (g + 1) ≠ v := by
  have hsize := hc.size
  obtain ⟨m'', hrun, hr⟩ := setWordAt_heap (x := x) (i := Frame.blockWord) (k := s.base + 7) h.inv hs rfl (by omega)
  have hopen (u : Value) : ¬ s.Shaped u := fun hu => by
    have := hu.control 7 (by decide)
    rw [hc.word 7 (by decide)] at this
    exact absurd this (by simp [Value.isLocal, hb])
  have hkeep : m'.KeepsScopes m'' := hr.keepsScopes hs hopen
  have hmoved : m.Moved m'' fs f := h.rewritten hvac hr hkeep
  refine ⟨m'', hrun, hmoved, hP.quiet (h.wellFormed hw) hp hr.context hkeep (hr.keepsOthers hs) hr.inv, hr.context,
    hr.size, hr.keepsOthers hs, ⟨_, hr.here, hself, hc.put (by decide)⟩, fun g hg hgv => ?_⟩
  -- frames have complete scopes only
  have hslot : m'.slot (g + 1) = v := by rw [← hgv, Machine.slot, Machine.slot, hr.context]
  obtain ⟨top, ht⟩ := ((h.wellFormed hw).linked g ((h.codeFrame hw).2 ((hmoved.codeFrame hw).1 hg))).copy
    (by rw [hslot]; exact isRef_of_scope? hs)
  obtain ⟨s', hs', hsh, -⟩ := ht.scope
  cases (hslot ▸ hs').symm.trans hs
  exact hopen _ hsh

/-- A block that is written in a frame becomes a proc, and that frame is moved first. -/
theorem Readied.makesProc {α : Type} {P : Machine → Prop} {outer : Value} {fuel : Nat} {k : Exec α}
    {Q : α → Machine → Prop} (hP : Upheld P fs) (h : m.Readied fs f outer) (hp : P m) (hn : m.demand fs f + 2 ≤ n)
    (hb : m.Builds m' f v (m.copyWords f v outer top)) (hblock : (m.slot (f + 7)).isBlock = true)
    (hesc : ∀ m₁ u, m₁.WellFormed fs → P m₁ → m₁.Linkable fs f u → m₁.demand fs f ≤ n →
      Ends (escape fuel u) m₁ n fun r m₂ => m₁.Escaped m₂ fs f u r ∧ P m₂ ∧ m₂.demand fs f ≤ m₁.demand fs f)
    (hk : ∀ m'' w, m.Copied m'' fs f v outer top w → P m'' → Ends k m'' n Q) :
    Ends (do
      let scope ← escape fuel (.frameAt (m.slot (f + 7)).toBlock.2)
      let self ← (Env.heap (← asScope scope).self).self
      (Env.heap v).setWordAt Frame.blockWord
        (← alloc (.proc { body := .code (m.slot (f + 7)).toBlock.1, self, outer := scope }))
      k) m' n Q := by
  obtain ⟨s, hs, hself, hcopy⟩ := hb.scope
  have hmoved : m.Moved m' fs f := hb.moved h.wellFormed
  have hp' := hP.quiet h.wellFormed hp hb.context hb.objects.scopes hb.objects.others hb.inv
  obtain ⟨hhome, hlt⟩ := (h.wellFormed.linked f h.frame).home hblock
  have hnamed := (h.wellFormed.linked _ hhome).named
  have hd' : m'.demand fs f ≤ m.demand fs f + 1 := demand_le hb.context hb.grows
  refine .bind (hesc m' _ (hmoved.wellFormed h.wellFormed) hp' (.inr (.inl ⟨Value.isFrame_frameAt _,
    hnamed.symm ▸ (hmoved.codeFrame h.wellFormed).2 hhome, hnamed.symm ▸ hlt⟩)) (hd'.trans (by omega)))
    fun scope m₁ hescaped => ?_
  obtain ⟨he, hp₁, hd₁⟩ := hescaped
  obtain ⟨t, ht⟩ : ∃ t, m₁.Enclosed scope t := by
    rcases he.link with ⟨hn, -⟩ | ⟨-, ht⟩
    · rw [Value.isNil_frameAt] at hn; cases hn
    · exact ht
  obtain ⟨sh, hsh, hshape, -⟩ := ht.scope
  have hmoved₁ := hmoved.trans h.wellFormed he.moved le_rfl
  have hw₁ := hmoved₁.wellFormed h.wellFormed
  have hroom : m₁.heap.pages.size < n := (m₁.le_demand fs f).trans_lt (by omega)
  refine .step (asScope_apply hsh) (.step (hshape.self.symm ▸ (reads_scope hsh hshape).self)
    (.bind (alloc_keeps hw₁.heap hroom _) fun p m₂ hnew => ?_))
  obtain ⟨hpr, hrest, hinv, hkeep, hread, hgrows⟩ := hnew
  have hd₂ : m₂.demand fs f ≤ m₁.demand fs f + 1 := demand_le (context_of_withHeap hrest) hgrows
  have hp₂ := hP.quiet hw₁ hp₁ (context_of_withHeap hrest) hkeep.scopes hkeep.others hinv
  have hmoved₂ : m.Moved m₂ fs f := hmoved₁.trans h.wellFormed (.of_objects hw₁ hrest hinv hkeep) le_rfl
  obtain ⟨m₃, hrun, hmoved₃, hp₃, hcontext, hsize, hothers, hscope, hunused⟩ := hmoved₂.setsBlock hP h.wellFormed hp₂ hb.vacant
    (hkeep.scope? (he.moved.objects.scope? hs)) hself hcopy hblock p
  have hd₃ : m₃.demand fs f ≤ m₂.demand fs f + 0 := demand_le hcontext hsize.le
  refine .step hrun (hk m₃ p ⟨hmoved₃, hscope, .inr ⟨hblock, ?_⟩, hunused, by omega⟩ hp₃)
  have hhomeCopy : m₃.slot ((m.slot (f + 7)).toBlock.2 + 1) = scope := by
    rw [slot, hcontext, context_of_withHeap hrest]
    exact (congrArg (fun g => m₁.slot (g + 1)) hnamed).symm.trans (he.copy (Value.isFrame_frameAt _))
  rw [hhomeCopy]
  exact ⟨ht.isRef, hpr, _, hothers p _ hread fun _ he => by cases he⟩

/-! ## The move of an environment -/

/-- By induction on the levels left. What is around a frame is moved first, then the frame is copied, then its block is
seen to, and last the copy takes the place of the frame. -/
theorem escape_keeps {P : Machine → Prop} (hP : Upheld P fs) (fuel b : Nat) (hb : b + 1 ≤ fuel) (hw : m.WellFormed fs)
    (hm : P m) (hv : m.Linkable fs b v) (hn : m.demand fs b ≤ n) :
    Ends (escape fuel v) m n fun w m' => m.Escaped m' fs b v w ∧ P m' ∧ m'.demand fs b ≤ m.demand fs b ∧
      (v.isRef = true → w = v) := by
  induction fuel generalizing b m v with
  | zero => omega
  | succ fuel ih =>
    rw [escape]
    split
    · rename_i hnr
      refine .of_ok rfl ⟨⟨.refl hw, fun _ hs => hs, ?_, fun hf => ?_⟩, hm, le_rfl, fun _ => rfl⟩
      · rcases hv with hn | ⟨hf, -⟩ | ⟨top, ht⟩
        · exact .inl ⟨hn, hn⟩
        · rw [Value.isNil_of_hasTag hf (by decide), Value.isRef_of_isFrame hf] at hnr
          cases hnr
        · exact .inr ⟨Value.isNil_of_isRef ht.isRef, top, ht⟩
      · rw [Value.isNil_of_hasTag hf (by decide), Value.isRef_of_isFrame hf] at hnr
        cases hnr
    rename_i hnr
    obtain ⟨hf, hc, hlt⟩ : v.isFrame = true ∧ m.CodeFrame fs v.toFrame ∧ v.toFrame < b := by
      rcases hv with hn | hf | ⟨top, ht⟩
      · rw [hn] at hnr; exact absurd rfl hnr
      · exact hf
      · rw [ht.isRef, Bool.or_true] at hnr; exact absurd rfl hnr
    have notRef {w : Value} (hr : v.isRef = true) : w = v := by
      rw [Value.isRef_of_isFrame hf] at hr
      cases hr
    have hl := hw.linked _ hc
    have hhigh := (hw.frames.placed hc.1).high
    rw [frameEnd_code hc.2] at hhigh
    have hframe : (liftM v.asFrame : Exec Nat) m = .ok v.toFrame m := by rw [Value.asFrame, if_pos hf]; rfl
    have hword : word (v.toFrame + Frame.envWord) m = .ok (m.slot (v.toFrame + 1)) m := word_apply_of rfl (by omega)
    refine .step hframe (.step hword ?_)
    split
    · rename_i hr
      obtain ⟨top, ht⟩ := hl.copy hr
      refine .of_ok rfl ⟨⟨.refl hw, fun ls hs => ?_, .inr ⟨Value.isNil_of_hasTag hf (by decide), top, ht⟩, fun _ => rfl⟩,
        hm, le_rfl, notRef⟩
      rcases hs.of_frame hf with ⟨hr', -⟩ | ⟨-, ho⟩
      · rw [hr] at hr'; cases hr'
      · exact ho
    rename_i hr
    have hout : (Env.stack v.toFrame).outer m = .ok (m.slot (v.toFrame + 4)) m := word_apply_of rfl (by omega)
    have hbelow := demand_succ_le hc.1 (Bool.eq_false_iff.2 hr) hlt
    refine .step hout (.bind (ih v.toFrame (by omega) hw hm hl.outer (by omega)) fun outer m₁ h => ?_)
    obtain ⟨he, hm₁, hd₁, hsame⟩ := h
    have hready := he.readied hw hc (Bool.eq_false_iff.2 hr) hsame
    have hroom : m₁.demand fs v.toFrame + 2 ≤ n := by omega
    refine hready.copies ((m₁.le_demand fs v.toFrame).trans_lt (by omega)) fun ref top m₂ href ht hbuilt => ?_
    have hblk : (Env.stack v.toFrame).block m₂ = .ok (m₁.slot (v.toFrame + 7)) m₂ := by
      rw [slot, ← hbuilt.context, ← slot]
      exact word_apply_of rfl (by rw [hbuilt.context, he.moved.capacity]; omega)
    have hfinish (m₃ w) (hcopied : m₁.Copied m₃ fs v.toFrame ref outer top w) (hm₃ : P m₃) :
        Ends (do setWord (v.toFrame + Frame.envWord) ref; return ref) m₃ n fun w m' =>
          m.Escaped m' fs b v w ∧ P m' ∧ m'.demand fs b ≤ m.demand fs b ∧ (v.isRef = true → w = v) := by
      refine (hready.finish hP ht hcopied hm₃ hf rfl).imp fun w m' h => ?_
      obtain ⟨h, hp, hd⟩ := h
      exact ⟨he.moved.escaped hw (h.weaken hlt) hlt.le, hp, (hd b hlt).trans (he.moved.demand_le hlt.le hd₁), notRef⟩
    refine .step hblk ?_
    split
    · rename_i hblock
      exact hready.makesProc hP hm₁ hroom hbuilt hblock (fun m₃ u hw₃ hm₃ hu hn =>
        (ih v.toFrame (by omega) hw₃ hm₃ hu hn).imp fun _ _ h => ⟨h.1, h.2.1, h.2.2.1⟩) hfinish
    · rename_i hblock
      obtain ⟨m₃, hrun, hcopied, hm₃⟩ := hready.keepsBlock hP hm₁ href hbuilt (Bool.eq_false_iff.2 hblock)
      exact .step hrun (hfinish m₃ _ hcopied hm₃)

/-- A frame takes two pages at most: one for its copy and one for the Proc of its block. -/
theorem escape_ends (fuel b : Nat) (hb : b + 1 ≤ fuel) (hw : m.WellFormed fs) (hv : m.Linkable fs b v) :
    Ends (escape fuel v) m (m.heap.pages.size + 2 * fs.length) fun w m' =>
      m.Escaped m' fs b v w ∧ m'.heap.pages.size ≤ m.heap.pages.size + 2 * fs.length :=
  (escape_keeps (P := fun _ => True) ⟨fun _ _ _ _ _ _ => trivial, fun _ _ _ _ _ _ _ _ => trivial⟩ fuel b hb hw trivial hv
    (m.demand_le_length fs b)).imp fun _ m' ⟨h, _, hd, _⟩ =>
      ⟨h, (m'.le_demand fs b).trans (hd.trans (m.demand_le_length fs b))⟩

/-! ## What a complete scope leads to -/

/-- The scopes that outer and method links lead to. -/
inductive Links (m : Machine) (v : Value) : Value → Prop
  | refl : Links m v v
  | outer {w : Value} {s : Scope} : Links m v w → m.scope? w = some s → (s.word 4).isNil = false →
      Links m v (s.word 4)
  | method {w : Value} {s : Scope} : Links m v w → m.scope? w = some s → Links m v (s.word 3)

theorem Enclosed.links (he : m.Enclosed v top) (hr : m.Links v w) : m.Enclosed w top := by
  induction hr with
  | refl => exact he
  | outer _ hs hn ih =>
    cases ih with
    | method hs' _ ho =>
      cases hs.symm.trans hs'
      rw [hn] at ho; cases ho
    | block hs' _ ho =>
      cases hs.symm.trans hs'
      exact ho
  | method _ hs ih =>
    obtain ⟨s', hs', -, hm⟩ := ih.scope
    cases hs.symm.trans hs'
    rw [hm]
    exact ih.outermost

theorem Enclosed.sees_top {ls : List Layer} (he : m.Enclosed v top) (hs : m.Sees fs v ls) :
    ∃ ls', m.Sees fs top ls' ∧ ls' ⊆ ls := by
  induction he generalizing ls with
  | method => exact ⟨ls, hs, List.Subset.refl ls⟩
  | block hv _ _ _ ih =>
    obtain ⟨-, ls', rfl, ho⟩ := hs.of_scope hv
    obtain ⟨ls'', hs'', hsub⟩ := ih ho
    exact ⟨ls'', hs'', List.subset_cons_of_subset _ hsub⟩

theorem Enclosed.sees_links {ls : List Layer} (he : m.Enclosed v top) (hs : m.Sees fs v ls) (hr : m.Links v w) :
    ∃ ls', m.Sees fs w ls' ∧ ls' ⊆ ls := by
  induction hr with
  | refl => exact ⟨ls, hs, List.Subset.refl ls⟩
  | outer _ hv _ ih =>
    obtain ⟨ls', hs', hsub⟩ := ih
    obtain ⟨-, ls'', rfl, ho⟩ := hs'.of_scope hv
    exact ⟨ls'', ho, fun l hl => hsub (List.mem_cons_of_mem _ hl)⟩
  | method hr hv ih =>
    obtain ⟨ls', hs', hsub⟩ := ih
    have he' := he.links hr
    obtain ⟨s', hv', -, hm⟩ := he'.scope
    cases hv.symm.trans hv'
    obtain ⟨ls'', hs'', hsub'⟩ := he'.sees_top hs'
    exact ⟨ls'', hm ▸ hs'', fun l hl => hsub (hsub' hl)⟩

/-- Every scope that is reached holds words that are good on any stack, as long as the values of the program are. -/
theorem Enclosed.clean {ls : List Layer} (he : m.Enclosed v top) (hs : m.Sees fs v ls) (hl : ∀ l ∈ ls, l.Clean)
    (hr : m.Links v w) : ∃ s, m.scope? w = some s ∧ ∀ x ∈ s.words, x.isLocal = false := by
  obtain ⟨s, hw, hsh, -⟩ := (he.links hr).scope
  obtain ⟨ls', hs', hsub⟩ := he.sees_links hs hr
  obtain ⟨-, ls'', rfl, -⟩ := hs'.of_scope hw
  exact ⟨s, hw, hsh.clean (hl _ (hsub List.mem_cons_self))⟩

/-! ## The move -/

/-- The layer some scopes out from a frame is the same in both machines, or there is none in either. -/
def SameView (m m' : Machine) (f depth : Nat) : Prop :=
  (∃ l, view f depth m = .ok l m ∧ view f depth m' = .ok l m') ∨
    ∃ n, view f depth m = .error (.noOuterScope n) m ∧ view f depth m' = .error (.noOuterScope n) m'

theorem Moved.sameView (h : m.Moved m' fs b) (hw : m.WellFormed fs) (hf : m.CodeFrame fs f) (depth : Nat) :
    m.SameView m' f depth := by
  obtain ⟨ls, hs⟩ := hw.sees (Value.isFrame_frameAt f) ((hw.linked f hf).named.symm ▸ hf)
  have hs' := h.sees _ _ hs
  rcases hs.view hw depth with ⟨l, hl, hv⟩ | ⟨hl, hv⟩ <;>
    rcases hs'.view (h.wellFormed hw) depth with ⟨l', hl', hv'⟩ | ⟨hl', hv'⟩
  · cases hl.symm.trans hl'
    exact .inl ⟨l, hv, hv'⟩
  · cases hl.symm.trans hl'
  · cases hl.symm.trans hl'
  · exact .inr ⟨_, hv, hv'⟩

theorem frameEnv_copy (hw : m.WellFormed fs) (hf : m.CodeFrame fs f) (hv : m.slot (f + 1) = v)
    (hc : m'.context = m.context) (hs : m'.scope? v = some s) : frameEnv f m' = .ok (.heap v) m' := by
  have hslot (i : Nat) : m'.slot i = m.slot i := by rw [slot, hc, slot]
  have hk : m.KeepsFrame m' f := fun i _ _ _ => hslot i
  have hp := hk.placed (by rw [hc]) (hw.frames.placed hf.1)
  rw [← hv, ← hslot] at hs ⊢
  exact envAt_moved (Value.isFrame_frameAt f) (hw.linked f hf).named.symm hp (hk.isCode.trans hf.2) hs

/-- A local that is written through the frame is read through its copy, and the other way round. -/
theorem shared_local (hw : m.WellFormed fs) (hf : m.CodeFrame fs f) (hv : m.slot (f + 1) = v) (hs : m.scope? v = some s)
    (hsh : s.Shaped v) {i : Nat} (hi : i < s.slotCount) (x : Value) : ∃ m',
    (do (← frameEnv f).setLocalAt i x; (Env.heap v).localAt i : Exec Value) m = .ok x m' ∧
      (do (Env.heap v).setLocalAt i x; (← frameEnv f).localAt i : Exec Value) m = .ok x m' := by
  obtain ⟨m', hrun, hget, hc, s', hs'⟩ := setLocalAt_scope hw.heap hs hsh hi x
  refine ⟨m', ?_, ?_⟩
  · rw [bind_of_ok (frameEnv_copy hw hf hv rfl hs), bind_of_ok hrun, hget]
  · rw [bind_of_ok hrun, bind_of_ok (frameEnv_copy hw hf hv hc hs'), hget]

/-- Moving a frame to the heap ends, if there is room for two pages for each frame, and shows to no one. Every code frame sees what it
saw. The frame and the scope are one memory. The scope is complete, as are those that it leads to, and none of
their control words is good on one stack only; nor is any other word of theirs, unless the code of the frame
sees one. Moving the frame again gives the scope and changes nothing. -/
theorem moveToHeap_transparent (hw : m.WellFormed fs) (hf : m.CodeFrame fs f) :
    Ends (moveToHeap (.frameAt f)) m (m.heap.pages.size + 2 * fs.length) fun ref m' =>
      (∀ g, m.CodeFrame fs g → ∀ depth, m.SameView m' g depth) ∧
      frameEnv f m' = .ok (.heap ref) m' ∧
      (∃ n : Nat, (Env.heap ref).slotCount m' = .ok (n : Int) m' ∧ ∀ i < n, ∀ x, ∃ m'',
        (do (← frameEnv f).setLocalAt i x; (Env.heap ref).localAt i : Exec Value) m' = .ok x m'' ∧
        (do (Env.heap ref).setLocalAt i x; (← frameEnv f).localAt i : Exec Value) m' = .ok x m'') ∧
      (∃ top, m'.Enclosed ref top ∧ ∀ w, m'.Links ref w → m'.Enclosed w top) ∧
      ((∀ depth l, view f depth m = .ok l m → l.Clean) →
        ∀ w, m'.Links ref w → ∃ s, m'.scope? w = some s ∧ ∀ x ∈ s.words, x.isLocal = false) ∧
      m'.WellFormed fs ∧ moveToHeap (.frameAt f) m' = .ok ref m' := by
  have hnamed := (hw.linked f hf).named
  have hframe := Value.isFrame_frameAt f
  have hcode : m.CodeFrame fs (Value.frameAt f).toFrame := hnamed.symm ▸ hf
  have hhigh := (hw.frames.placed hf.1).high
  rw [frameEnd_code hf.2] at hhigh
  have hends := escape_ends (m.context.stack.capacity + 2) (f + 1) (by omega) hw
    (.inr (.inl ⟨hframe, hcode, by rw [hnamed]; omega⟩))
  refine Ends.step (show Exec.stack m = .ok m.context.stack m from rfl) (hends.imp fun ref m' ⟨he, _⟩ => ?_)
  have hw' := he.moved.wellFormed hw
  have hf' := (he.moved.codeFrame hw).2 hf
  obtain ⟨top, ht⟩ : ∃ top, m'.Enclosed ref top := by
    rcases he.link with ⟨hn, -⟩ | ⟨-, ht⟩
    · rw [Value.isNil_frameAt] at hn; cases hn
    · exact ht
  have hcopy : m'.slot (f + 1) = ref := by
    have := he.copy hframe
    rwa [hnamed] at this
  obtain ⟨s, hs, hsh, -⟩ := ht.scope
  refine ⟨fun g hg => he.moved.sameView hw hg, frameEnv_copy hw' hf' hcopy rfl hs,
    ⟨s.slotCount, slotCount_scope hs hsh, fun i hi x => shared_local hw' hf' hcopy hs hsh hi x⟩,
    ⟨top, ht, fun w hr => ht.links hr⟩, fun hclean w hr => ?_, hw', ?_⟩
  · obtain ⟨ls, hls⟩ := hw.sees hframe hcode
    refine ht.clean (he.seen ls hls) (fun l hl => ?_) hr
    obtain ⟨depth, hd, rfl⟩ := List.mem_iff_getElem.1 hl
    rcases hls.view hw depth with ⟨l, hl', hv⟩ | ⟨hl', -⟩
    · rw [List.getElem?_eq_getElem hd] at hl'
      cases hl'
      exact hclean depth _ hv
    · rw [List.getElem?_eq_getElem hd] at hl'
      cases hl'
  · have hword : word ((Value.frameAt f).toFrame + Frame.envWord) m' = .ok ref m' := by
      rw [hnamed, ← hcopy]
      exact word_apply_of rfl (by rw [he.moved.capacity]; omega)
    rw [moveToHeap, bind_of_ok (show Exec.stack m' = .ok m'.context.stack m' from rfl), escape, if_neg
      (by rw [Value.isNil_frameAt, Value.isRef_frameAt]; decide), Value.asFrame, if_pos hframe]
    rw [show (liftM (Except.ok (Value.frameAt f).toFrame : Except Defect Nat) : Exec Nat) = pure _ from rfl]
    rw [bind_of_ok (pure_apply _ _), bind_of_ok hword, if_pos ht.isRef]
    rfl

/-- A method with one local that runs a block, which was passed on a block of the method itself. -/
def twoFrames : Machine where
  options := {}
  heap := .new 0 false
  pool := { capacity := 0, stackSize := 0 }
  context := {
    stack := {
      slots := #[.true, .false, .true, .nil, .frameAt 3, .ofInt 0x180, .frameAt 3, .nil, .ofInt 0, .ofInt 1, .nil,
        .true, .true, .frameAt 3, .frameAt 13, .ofInt 0x80, .frameAt 3, .frameAt 3, .ofInt 0, .ofInt 2, .ofBlock ⟨3⟩ 3]
      len := 21
      capacity := 64
      len_le := by decide }
    frame := some 13 }

theorem wellFormed_twoFrames : twoFrames.WellFormed [13, 3] where
  heap := Heap.inv_new 0 false
  frames := by
    refine .cons ⟨by decide, by decide, by decide⟩ (by decide) (.cons ⟨by decide, by decide, by decide⟩ (by decide) ?_)
    exact .nil
  linked f hf := by
    obtain rfl | rfl : f = 13 ∨ f = 3 := by simpa using hf.1
    · exact ⟨by decide, .inr (.inl ⟨by decide, ⟨by decide, by decide⟩, by decide⟩),
        .inr (.inr (.inr ⟨by decide, ⟨by decide, by decide⟩, by decide⟩)), fun h => absurd h (by decide), by decide,
        by decide⟩
    · exact ⟨by decide, .inl (by decide), .inl (by decide), fun h => absurd h (by decide), by decide, by decide⟩

/-- There is room for the move, and after it the block goes on to see the local of the method. -/
theorem moveToHeap_twoFrames : twoFrames.WellFormed [13, 3] ∧ twoFrames.CodeFrame [13, 3] 13 ∧
    ∃ ref m', moveToHeap (.frameAt 13) twoFrames = .ok ref m' ∧ view 13 1 m' = .ok ⟨.true, [.false]⟩ m' ∧
      moveToHeap (.frameAt 13) m' = .ok ref m' := by
  have hc : twoFrames.CodeFrame [13, 3] 13 := ⟨by decide, by decide⟩
  obtain ⟨ref, m', hrun, hview, -, -, -, -, -, hagain⟩ :=
    (moveToHeap_transparent wellFormed_twoFrames hc).exists_ok (by decide)
  refine ⟨wellFormed_twoFrames, hc, ref, m', hrun, ?_, hagain⟩
  have hbefore : view 13 1 twoFrames = .ok ⟨.true, [.false]⟩ twoFrames := rfl
  rcases hview 13 hc 1 with ⟨l, hv, hv'⟩ | ⟨n, hv, -⟩
  · cases hbefore.symm.trans hv
    exact hv'
  · cases hbefore.symm.trans hv

end Machine

end RubyMachine
