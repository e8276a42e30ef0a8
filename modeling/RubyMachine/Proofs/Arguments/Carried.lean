import RubyMachine.Proofs.Arguments.Slots
import RubyMachine.Proofs.Machine.Collections
import RubyMachine.Proofs.Scope.Environments
import RubyMachine.Proofs.Scope.Filling
import RubyMachine.Proofs.Scope.Homes

/-! What a method was called with, while it runs: its environment has the arguments and the keywords in a hidden local, and
a word for the block. It keeps them when words are added above it (`Spares.of_lays`), when its other locals are set
(`setLocalAt_spares`), when garbage is collected (`Collected.spares`), and when it moves to the heap (`Course.carries`). -/

namespace RubyMachine

open Exec

namespace Machine

variable {m m' : Machine} {e : Env} {fn : FnId} {slot f g : Nat} {fs : List Nat} {args : List Value}
  {kw u v w w' o top : Value} {s : Scope}

/-- At `v` there are arguments and keywords: an array of an array and a word. -/
structure Packs (m : Machine) (v : Value) (args : List Value) (kw : Value) : Prop where
  isRef : v.isRef = true
  list : ∃ u : Value, m.heap.read v.toRef = .ok (.array #[u, kw]) ∧ u.isRef = true ∧
    m.heap.read u.toRef = .ok (.array args.toArray)

/-- At `v` there is a Proc of the code `fn`, which runs in `outer`. -/
structure IsProc (m : Machine) (v : Value) (fn : FnId) (outer : Value) : Prop where
  isRef : v.isRef = true
  proc : ∃ p : Proc, m.heap.read v.toRef = .ok (.proc p) ∧ p.body = .code fn ∧ p.outer = outer

theorem Packs.kept (ho : m.KeepsOthers m') (h : m.Packs v args kw) : m'.Packs v args kw := by
  obtain ⟨hv, u, hpair, hu, hlist⟩ := h
  exact ⟨hv, u, ho v _ hpair nofun, hu, ho u _ hlist nofun⟩

theorem IsProc.kept (ho : m.KeepsOthers m') (h : m.IsProc v fn o) : m'.IsProc v fn o := by
  obtain ⟨hv, p, hread, hp⟩ := h
  exact ⟨hv, p, ho v _ hread nofun, hp⟩

/-- The environment of a method that can pass on what it was called with: arguments and keywords are in a hidden local,
and `w` is the word for the block. -/
structure Carries (m : Machine) (e : Env) (fn : FnId) (slot : Nat) (args : List Value) (kw w : Value) : Prop where
  inv : m.heap.Inv
  live : m.Live e
  alone : (m.wordOf e 4).isNil = true
  method : m.wordOf e 3 = e.name
  code : m.wordOf e 6 = .ofInt fn.id.toNat
  block : m.wordOf e 7 = w
  fits : slot < m.slotsOf e
  hidden : m.Packs (m.localOf e slot) args kw

/-- What an environment needs to go on carrying what is in the local `slot`. Its other locals are free to change, and so are
the temporaries, other frames, and all objects but those that hold what is carried. -/
structure Spares (m m' : Machine) (e : Env) (slot : Nat) : Prop where
  inv : m'.heap.Inv
  live : m'.Live e
  word : ∀ k < 8, k ≠ 1 → k ≠ 5 → m'.wordOf e k = m.wordOf e k
  hidden : m'.localOf e slot = m.localOf e slot
  packs : ∀ args kw, m.Packs (m.localOf e slot) args kw → m'.Packs (m.localOf e slot) args kw
  block : ∀ fn o, m.IsProc (m.wordOf e 7) fn o → m'.IsProc (m.wordOf e 7) fn o

theorem Carries.spared (h : m.Carries e fn slot args kw w) (hs : m.Spares m' e slot) : m'.Carries e fn slot args kw w where
  inv := hs.inv
  live := hs.live
  alone := by
    rw [hs.word 4 (by decide) (by decide) (by decide)]
    exact h.alone
  method := (hs.word 3 (by decide) (by decide) (by decide)).trans h.method
  code := (hs.word 6 (by decide) (by decide) (by decide)).trans h.code
  block := (hs.word 7 (by decide) (by decide) (by decide)).trans h.block
  fits := by
    rw [slotsOf, hs.word 2 (by decide) (by decide) (by decide)]
    exact h.fits
  hidden := by
    rw [hs.hidden]
    exact hs.packs args kw h.hidden

theorem Spares.of_kept (h : m.Live e) (hslot : slot < m.slotsOf e) (hk : m.KeepsEnv m' e) (ho : m.KeepsOthers m')
    (hi : m'.heap.Inv) : m.Spares m' e slot where
  inv := hi
  live := hk.live h
  word _ hlt _ _ := hk.wordOf h hlt
  hidden := hk.localOf h hslot
  packs _ _ := Packs.kept ho
  block _ _ := IsProc.kept ho

/-! ## Words that are added above -/

theorem Live.keepsEnv_lays {low size : Nat} {c : Nat → Value} (h : m.Live e) (hl : Lays m m' low size c)
    (hlow : m.context.stack.len ≤ low) : m.KeepsEnv m' e where
  stack f he := by
    subst he
    cases h with
    | stack hp hc hn hr hlen =>
      have hend := frameEnd_code hc
      have hlen' := hl.len
      exact ⟨by omega, hl.capacity, fun i _ hhi _ => hl.below i (by omega), hl.below _ (by omega)⟩
  heap v s _ hs _ := hl.objects.scope? hs

theorem Spares.of_lays {low size : Nat} {c : Nat → Value} (h : m.Live e) (hslot : slot < m.slotsOf e)
    (hl : Lays m m' low size c) (hlow : m.context.stack.len ≤ low) : m.Spares m' e slot :=
  .of_kept h hslot (h.keepsEnv_lays hl hlow) hl.objects.others hl.inv

/-! ## Moves to the heap -/

theorem Enclosed.top_alone (h : m.Enclosed v top) : ∃ s, m.scope? top = some s ∧ (s.word 4).isNil = true := by
  induction h with
  | method hs _ ho _ => exact ⟨_, hs, ho⟩
  | block _ _ _ _ ih => exact ih

/-- A scope that takes the place of a frame carries what the frame carried. -/
theorem Carries.doubled (h : m.Carries (.stack f) fn slot args kw w) (he : m.Enclosed v top) (ha : m.Around f v top)
    (hd : m.Doubles f v s) : m.Conveys w (s.word 7) ∧ m.Carries (.heap v) fn slot args kw (s.word 7) := by
  obtain ⟨hs, hsh, hsize, hlocal, hcode, hblock⟩ := hd
  have halone : (m.slot (f + 4)).isNil = true := h.alone
  have htop : top = v := by
    rcases ha with ⟨-, htop⟩ | ⟨outer, ho, hlink | ⟨hfr, -⟩⟩
    · exact htop
    · rw [hlink, Value.isNil_of_isRef ho.isRef] at halone
      cases halone
    · rw [Value.isNil_of_hasTag hfr (by decide)] at halone
      cases halone
  subst htop
  have hlt : slot < m.slotsAt f := h.fits
  have houter : (s.word 4).isNil = true := by
    obtain ⟨s', hs', hn⟩ := he.top_alone
    cases hs.symm.trans hs'
    exact hn
  obtain ⟨s', hs', -, hmethod⟩ := he.scope
  cases hs.symm.trans hs'
  have hhidden : m.localOf (.heap top) slot = m.localOf (.stack f) slot := by
    rw [localOf_heap hs]
    exact hlocal slot hlt
  refine ⟨?_, h.inv, .heap hs hsh, ?_, ?_, ?_, wordOf_heap hs 7, ?_, ?_⟩
  · rw [← h.block]
    exact hblock
  · rw [wordOf_heap hs]
    exact houter
  · rw [wordOf_heap hs]
    exact hmethod
  · rw [wordOf_heap hs, hcode]
    exact h.code
  · rw [slotsOf_heap hs, hsize]
    exact hlt
  · rw [hhidden]
    exact h.hidden

theorem Conveys.kept (hslot : ∀ i, (m.slot i).isRef = true → m'.slot i = m.slot i) (ho : m.KeepsOthers m')
    (h : m.Conveys w w') : m'.Conveys w w' := by
  rcases h with h | ⟨hb, hr, hw, self, hread⟩
  · exact .inl h
  refine .inr ?_
  rw [hslot _ hr]
  exact ⟨hb, hr, hw, self, ho _ _ hread nofun⟩

/-- What the frame at `f` carried is carried by it, or by its copy. -/
def Hands (m : Machine) (f : Nat) (fn : FnId) (slot : Nat) (args : List Value) (kw w : Value) : Prop :=
  m.Carries (.stack f) fn slot args kw w ∨
    ∃ w', m.Conveys w w' ∧ m.Carries (.heap (m.slot (f + 1))) fn slot args kw w'

theorem hands_upheld (hf : f ∈ fs) : Upheld (fun m => m.Hands f fn slot args kw w) fs where
  quiet {m m'} _ h hc hk ho hi := by
    have hslot (i : Nat) : m'.slot i = m.slot i := by rw [Machine.slot, hc, Machine.slot]
    rcases h with h | ⟨w', hw', h⟩
    · have hk : m.KeepsEnv m' (.stack f) := by
        refine .of_frame ?_ ?_ (fun i _ _ _ => hslot i) (hslot _)
        · rw [hc]
          exact h.live.frame_le
        · rw [hc]
      exact .inl (h.spared (.of_kept h.live h.fits hk ho hi))
    · refine .inr ⟨w', hw'.kept (fun i _ => hslot i) ho, ?_⟩
      rw [hslot]
      exact h.spared (.of_kept h.live h.fits (.of_scope fun s hs hsh => hk _ s hs hsh) ho hi)
  redirect {m g v top s} hw h hg hr he _ ha hd := by
    have hkeep (w : Value) (hne : ¬ g + 1 = f + 1) : (m.poke (g + 1) w).slot (f + 1) = m.slot (f + 1) := by
      rw [slot_poke, if_neg (Ne.symm hne)]
    have hslot (i : Nat) (hi : (m.slot i).isRef = true) : (m.poke (g + 1) v).slot i = m.slot i := by
      rw [slot_poke, if_neg]
      rintro rfl
      rw [hr] at hi
      cases hi
    have ho : m.KeepsOthers (m.poke (g + 1) v) := fun _ _ hread _ => hread
    rcases h with h | ⟨w', hw', h⟩
    · by_cases hgf : g = f
      · subst hgf
        obtain ⟨hconveys, hcarries⟩ := h.doubled he ha hd
        refine .inr ⟨_, hconveys.kept hslot ho, ?_⟩
        rw [slot_poke, if_pos rfl]
        exact hcarries.spared (.of_kept hcarries.live hcarries.fits (.of_scope fun _ hs _ => hs) ho h.inv)
      · refine .inl (h.spared (.of_kept h.live h.fits (.of_frame h.live.frame_le rfl ?_ (hkeep v (by omega))) ho h.inv))
        intro i hlo hhi hne
        rw [slot_poke, if_neg (hw.ne_copy hg hf hlo hhi hne)]
    · have href : (m.slot (f + 1)).isRef = true := by
        cases h.live with
        | heap hs _ => exact isRef_of_scope? hs
      refine .inr ⟨w', hw'.kept hslot ho, ?_⟩
      rw [hslot _ href]
      exact h.spared (.of_kept h.live h.fits (.of_scope fun _ hs _ => hs) ho h.inv)

theorem Moved.spares {b : Nat} (h : m.Moved m' fs b) (hl : m.Live (.heap v)) (hslot : slot < m.slotsOf (.heap v)) :
    m.Spares m' (.heap v) slot :=
  .of_kept hl hslot (.of_scope fun _ hs _ => h.objects.scope? hs) h.objects.others h.inv

/-- What is upheld while frames move to the heap holds when they have moved. -/
theorem moveToHeap_upheld {P : Machine → Prop} (hP : Upheld P fs) (hw : m.WellFormed fs) (hg : m.CodeFrame fs g)
    (hm : P m) : Ends (moveToHeap (.frameAt g)) m (m.heap.pages.size + 2 * fs.length) fun _ m' =>
      P m' ∧ m.Moved m' fs (g + 1) := by
  have hnamed := (hw.linked g hg).named
  have hhigh := (hw.frames.placed hg.1).high
  rw [frameEnd_code hg.2] at hhigh
  have hlink : m.Linkable fs (g + 1) (.frameAt g) :=
    .inr (.inl ⟨Value.isFrame_frameAt g, hnamed.symm ▸ hg, by rw [hnamed]; omega⟩)
  refine .step (show Exec.stack m = .ok m.context.stack m from rfl) ?_
  refine (escape_keeps hP (m.context.stack.capacity + 2) (g + 1) (by omega) hw hm hlink (m.demand_le_length fs _)).imp ?_
  rintro _ m' ⟨he, hp, -⟩
  exact ⟨hp, he.moved⟩

/-! ## Collections -/

/-- What an environment that is not lost leads to is not lost. -/
theorem Live.retains (h : m.Live e) (hr : ∀ v, e = .heap v → m.Retains v) :
    (∀ k < 8, (m.wordOf e k).isRef = true → m.Retains (m.wordOf e k)) ∧
      ∀ i < m.slotsOf e, (m.localOf e i).isRef = true → m.Retains (m.localOf e i) := by
  cases h with
  | @stack f hp hc hn hep hlen =>
    have hlow := hp.low
    have hslots : m.slotsOf (.stack f) = m.slotsAt f := rfl
    exact ⟨fun k hk => Retains.slot (by omega), fun i hi => Retains.slot (by omega)⟩
  | @heap v s hs hsh =>
    have hbase := hsh.base
    have hsize := hsh.size
    have hread := (scope?_eq_some.1 hs).2
    have hmem {j : Nat} (hj : j < s.words.size) (href : (s.words.getD j .nil).isRef = true) :
        m.Retains (s.words.getD j .nil) := by
      refine (hr v rfl).field hread ?_ href
      rw [Array.getD_eq_getD_getElem?, Array.getElem?_eq_getElem hj, Option.getD_some]
      exact Array.getElem_mem_toList hj
    refine ⟨fun k hk => ?_, fun i hi => ?_⟩
    · rw [wordOf_heap hs]
      exact hmem (by omega)
    · rw [slotsOf_heap hs] at hi
      rw [localOf_heap hs]
      exact hmem (by omega)

theorem Collected.spares (hc : m.Collected m') (h : m.Live e) (hslot : slot < m.slotsOf e)
    (hr : ∀ v, e = .heap v → m.Retains v) : m.Spares m' e slot := by
  have hword (i : Nat) : m'.slot i = m.slot i := by rw [Machine.slot, hc.context, Machine.slot]
  have hk : m.KeepsEnv m' e := by
    refine ⟨fun f he => ?_, fun v s he hs _ => ?_⟩
    · subst he
      rw [hc.context]
      exact ⟨h.frame_le, rfl, fun i _ _ _ => hword i, hword _⟩
    · obtain ⟨href, hread⟩ := scope?_eq_some.1 hs
      exact scope?_eq_some.2 ⟨href, hc.read v _ (hr v he) hread⟩
  refine ⟨hc.heap, hk.live h, fun k hlt _ _ => hk.wordOf h hlt, hk.localOf h hslot, fun args kw hp => ?_, fun fn o hp => ?_⟩
  · obtain ⟨href, u, hpair, hu, hlist⟩ := hp
    have hv := (h.retains hr).2 _ hslot href
    have hu' : m.Retains u := hv.field hpair (by simp [Object.refs]) hu
    exact ⟨href, u, hc.read _ _ hv hpair, hu, hc.read _ _ hu' hlist⟩
  · obtain ⟨href, p, hread, hp⟩ := hp
    exact ⟨href, p, hc.read _ _ ((h.retains hr).1 _ (by decide) href) hread, hp⟩

/-! ## Other locals -/

/-- Setting another local leaves what is carried where it is. -/
theorem setLocalAt_spares (h : m.Carries e fn slot args kw w) {i : Nat} (hi : i < m.slotsOf e) (hne : i ≠ slot)
    (x : Value) : ∃ m', e.setLocalAt i x m = .ok () m' ∧ m.Spares m' e slot := by
  obtain ⟨hinv, hl, -, -, hcode, -, hslot, -⟩ := h
  have hcount := hl.slotCount
  cases hl with
  | @stack f hp hc hn hep hlen =>
    have hlow := hp.low
    have hhigh := hp.high
    rw [frameEnd_code hc] at hhigh
    have hslots : m.slotsOf (.stack f) = m.slotsAt f := rfl
    have hpoke {j : Nat} (hj : j ≠ f - m.slotsAt f - 1 + i) : (m.poke (f - m.slotsAt f - 1 + i) x).slot j = m.slot j := by
      rw [slot_poke, if_neg hj]
    have hflags : (m.poke (f - m.slotsAt f - 1 + i) x).slotsAt f = m.slotsAt f := by
      rw [slotsAt, hpoke (by omega), slotsAt]
    refine ⟨m.poke (f - m.slotsAt f - 1 + i) x, ?_, hinv, ?_, fun k _ _ _ => hpoke (by omega), ?_,
      fun _ _ => Packs.kept fun _ _ hread _ => hread, fun _ _ => IsProc.kept fun _ _ hread _ => hread⟩
    · rw [Env.setLocalAt, bind_of_ok hcount]
      exact setWord_apply (by omega) (by omega)
    · refine .stack ⟨?_, ?_, ?_⟩ ?_ hn ?_ hlen
      · rw [hpoke (by omega)]
        exact hp.flags
      · rw [hflags]
        exact hlow
      · rw [frameEnd, isCode, hpoke (by omega)]
        exact hp.high
      · rw [isCode, hpoke (by omega)]
        exact hc
      · rw [hpoke (by omega)]
        exact hep
    · rw [localOf, hflags, hpoke (by omega), localOf]
  | @heap v s hs hsh =>
    rw [slotsOf_heap hs] at hi hslot
    rw [wordOf_heap hs] at hcode
    have hb : s.Bound v fn s.slotCount := ⟨hsh, rfl, hcode⟩
    obtain ⟨hb', -, hword, hput⟩ := hb.put (x := x) hi
    obtain ⟨m', hrun, ht, hs'⟩ := setLocalAt_bound hinv hs hb hi x
    have hkeep : m.KeepsOthers m' := fun u o hu hnot => by
      refine ht.elsewhere u (fun he => ?_) o hu
      rw [he, (scope?_eq_some.1 hs).2] at hu
      cases hu
      exact hnot _ rfl
    refine ⟨m', hrun, ht.inv, .heap hs' hb'.shaped, fun k hk _ _ => ?_, ?_, fun _ _ => Packs.kept hkeep,
      fun _ _ => IsProc.kept hkeep⟩
    · rw [wordOf_heap hs', wordOf_heap hs, hword k hk]
    · rw [localOf_heap hs', localOf_heap hs, hput slot hslot, if_neg hne.symm]

/-! ## What happens while a method runs -/

/-- Whatever happens to the environment of a method, as long as what it carries is spared: nobody sets the hidden local or
changes what is in it, and functions keep their code. The environment may be moved to the heap, on its own or as one that
others are nested in. -/
inductive Course (slot : Nat) (m₀ : Machine) (e₀ : Env) : Machine → Env → Prop
  | start : Course slot m₀ e₀ m₀ e₀
  | spared {m m' : Machine} {e : Env} : Course slot m₀ e₀ m e → m.Spares m' e slot →
      (∀ fn seq, m.functions.sequence fn = .ok seq → m'.functions.sequence fn = .ok seq) → Course slot m₀ e₀ m' e
  | moved {m m' : Machine} {f g : Nat} {fs : List Nat} {v : Value} : Course slot m₀ e₀ m (.stack f) →
      m.WellFormed fs → f ∈ fs → m.CodeFrame fs g → moveToHeap (.frameAt g) m = .ok v m' →
      Course slot m₀ e₀ m' (m'.envOf (.frameAt f))

/-- The word is that of a Proc that was made of the block with the word `w`: it runs in the copy that the frame of the block
had when it was made. -/
def Made (slot : Nat) (m₀ : Machine) (e₀ : Env) (m : Machine) (w w' : Value) : Prop :=
  w.isBlock = true ∧ ∃ m₁ e₁, Course slot m₀ e₀ m₁ e₁ ∧ m.IsProc w' w.toBlock.1 (m₁.slot (w.toBlock.2 + 1))

namespace Course

variable {m₀ : Machine} {e₀ : Env}

/-- The arguments and the keywords are carried to the end, and the block or the Proc made of it. -/
theorem carries (hc : Course slot m₀ e₀ m e) (h : m₀.Carries e₀ fn slot args kw w) :
    ∃ w', m.Carries e fn slot args kw w' ∧ (w' = w ∨ Made slot m₀ e₀ m w w') := by
  induction hc with
  | start => exact ⟨w, h, .inl rfl⟩
  | @spared m m' e _ hs _ ih =>
    obtain ⟨w', h', hmade⟩ := ih
    refine ⟨w', h'.spared hs, hmade.imp_right fun ⟨hb, m₁, e₁, hc₁, hp⟩ => ⟨hb, m₁, e₁, hc₁, ?_⟩⟩
    rw [← h'.block] at hp ⊢
    exact hs.block _ _ hp
  | @moved m m' f g fs v hc hw hf hg hrun ih =>
    obtain ⟨w', h', hmade⟩ := ih
    obtain ⟨hhands, hmoved⟩ := (moveToHeap_upheld (hands_upheld hf) hw hg (.inl h')).of_run hrun
    have hmade' : w' = w ∨ Made slot m₀ e₀ m' w w' := hmade.imp_right fun ⟨hb, m₁, e₁, hc₁, hp⟩ =>
      ⟨hb, m₁, e₁, hc₁, hp.kept hmoved.objects.others⟩
    have hnamed : (Value.frameAt f).toFrame = f := by
      cases h'.live with
      | stack _ _ hn _ _ => exact hn
    have henv : m'.envOf (.frameAt f) = if (m'.slot (f + 1)).isRef then .heap (m'.slot (f + 1)) else .stack f := by
      rw [envOf, if_pos (Value.isFrame_frameAt f), hnamed]
    rcases hhands with hstay | ⟨w'', hconveys, hgone⟩
    · have hep : (m'.slot (f + 1)).isRef = false := by
        cases hstay.live with
        | stack _ _ _ hr _ => exact hr
      rw [henv, hep, if_neg (by decide)]
      exact ⟨w', hstay, hmade'⟩
    · have hep : (m'.slot (f + 1)).isRef = true := by
        cases hgone.live with
        | heap hs _ => exact isRef_of_scope? hs
      have hcourse : Course slot m₀ e₀ m' (m'.envOf (.frameAt f)) := .moved hc hw hf hg hrun
      rw [henv, hep, if_pos rfl] at hcourse ⊢
      refine ⟨w'', hgone, ?_⟩
      rcases hconveys with ⟨-, rfl⟩ | ⟨hb, -, href, self, hread⟩
      · exact hmade'
      · rcases hmade' with rfl | ⟨-, _, _, _, hp⟩
        · exact .inr ⟨hb, m', _, hcourse, href, _, hread, rfl, rfl⟩
        · rw [Value.isBlock_of_isRef hp.isRef] at hb
          cases hb

/-- Functions keep their code. -/
theorem code {seq : Code.Sequence} (hc : Course slot m₀ e₀ m e) (h : m₀.functions.sequence fn = .ok seq) :
    m.functions.sequence fn = .ok seq := by
  induction hc with
  | start => exact h
  | spared _ _ hf ih => exact hf _ _ ih
  | @moved m m' f g fs v _ hw _ hg hrun ih =>
    have htrue : Upheld (fun _ => True) fs := ⟨fun _ _ _ _ _ _ => trivial, fun _ _ _ _ _ _ _ _ => trivial⟩
    rw [← ((moveToHeap_upheld htrue hw hg trivial).of_run hrun).2.rest] at ih
    exact ih

end Course

end Machine

end RubyMachine
