import RubyMachine.Proofs.Arguments.Carried
import RubyMachine.Proofs.Scope.Bindings
import RubyMachine.Proofs.Scope.Upkeep
import RubyMachine.Proofs.Value.Blocks

/-! The frames of a thread and what is left to be done on it: each call that has not come back has a frame, and lies on
what its caller had of the stack. It stays so whatever happens, as long as nobody writes over control words. -/

namespace RubyMachine

open Exec

/-- What is left to be done of a call that takes up a part of the stack. -/
def Kont.isCall : Kont → Bool
  | .activation .. | .native .. | .drop .. => true
  | _ => false

namespace Machine

variable {m m' m'' : Machine} {fs : List Nat} {a b : Activation} {k : Kont} {ks : List Kont} {v w top x : Value} {e : Env}
  {f g depth : Nat} {n n' pc next : Int} {p : Pending} {caller : Option Nat} {guarded : Bool}

def isLambda (m : Machine) (f : Nat) : Bool := UInt64.ofInt (m.slot (f + 2)).toInt &&& Frame.lambdaFlag != 0

/-! ## What calls have of the stack -/

/-- The frame of an activation is the one that its call made. -/
structure Seats (m : Machine) (a : Activation) : Prop where
  code : m.isCode a.frame = true
  lambda : m.isLambda a.frame = (!a.asBlock && a.seq.kind == .block)
  caller : m.callerAt a.frame = a.caller
  height : a.height ≤ a.frame

/-- The calls that have not come back have the frames `fs`. They lie on the stack one below the other, the first one below
slot `n`. -/
inductive Stacked (m : Machine) : List Nat → Int → List Kont → Prop
  | nil {n : Int} : 0 ≤ n → Stacked m [] n []
  | activation {fs : List Nat} {n : Int} {a : Activation} {pc next : Int} {p : Pending} {ks : List Kont} :
      m.Seats a → a.frame + 8 ≤ n → Stacked m fs a.height ks →
      Stacked m (a.frame :: fs) n (.activation a pc next p :: ks)
  | native {fs : List Nat} {n : Int} {f : Nat} {caller : Option Nat} {height : Int} {guarded : Bool} {ks : List Kont} :
      m.isCode f = false → m.callerAt f = caller → f + 3 ≤ n → height ≤ f → Stacked m fs height ks →
      Stacked m (f :: fs) n (.native caller height guarded :: ks)
  | drop {fs : List Nat} {n height : Int} {ks : List Kont} : height ≤ n → Stacked m fs height ks →
      Stacked m fs n (.drop height :: ks)
  | other {fs : List Nat} {n : Int} {k : Kont} {ks : List Kont} : k.isCall = false → Stacked m fs n ks →
      Stacked m fs n (k :: ks)

namespace Stacked

theorem nonneg (h : m.Stacked fs n ks) : 0 ≤ n := by
  induction h with
  | nil h => exact h
  | drop hle _ ih => exact ih.trans hle
  | other _ _ ih => exact ih
  | activation | native => omega

theorem mono (h : m.Stacked fs n ks) (hn : n ≤ n') : m.Stacked fs n' ks := by
  induction h generalizing n' with
  | nil h => exact .nil (h.trans hn)
  | activation hs hf hks _ => exact .activation hs (hf.trans hn) hks
  | native hc hcaller hf hle hks _ => exact .native hc hcaller (hf.trans hn) hle hks
  | drop hle hks _ => exact .drop (hle.trans hn) hks
  | other hk _ ih => exact .other hk (ih hn)

theorem piled (h : m.Stacked fs n ks) : Piled n ks := by
  induction h with
  | nil => trivial
  | activation hs hf hks ih => exact ⟨⟨hks.nonneg, hs.height, hf⟩, ih⟩
  | native _ _ hf hle hks ih => exact ⟨⟨hks.nonneg, by omega⟩, ih⟩
  | drop hle hks ih => exact ⟨⟨hks.nonneg, hle⟩, ih⟩
  | @other _ _ k _ hk _ ih =>
    cases k with
    | activation | native | drop => cases hk
    | _ => exact ⟨trivial, ih⟩

/-- Activations run in frames of code. -/
theorem seats (h : m.Stacked fs n ks) (hk : .activation a pc next p ∈ ks) : m.Seats a ∧ a.frame ∈ fs := by
  induction h with
  | nil => cases hk
  | activation hs _ _ ih =>
    rcases List.mem_cons.1 hk with he | hk
    · cases he
      exact ⟨hs, List.mem_cons_self⟩
    · exact (ih hk).imp_right (List.mem_cons_of_mem _)
  | native _ _ _ _ _ ih => exact (ih ((List.mem_cons.1 hk).resolve_left nofun)).imp_right (List.mem_cons_of_mem _)
  | drop _ _ ih => exact ih ((List.mem_cons.1 hk).resolve_left nofun)
  | other hcall _ ih =>
    rcases List.mem_cons.1 hk with rfl | hk
    · cases hcall
    · exact ih hk

theorem frameEnd_le (h : m.Stacked fs n ks) (hf : f ∈ fs) : (m.frameEnd f : Int) ≤ n := by
  induction h with
  | nil => cases hf
  | activation hs hn hks ih =>
    rcases List.mem_cons.1 hf with rfl | hf
    · rw [frameEnd_code hs.code]
      exact hn
    · have := ih hf
      have := hs.height
      omega
  | @native _ _ g _ _ _ _ hc _ hn hle _ ih =>
    rcases List.mem_cons.1 hf with rfl | hf
    · rw [frameEnd, hc]
      exact hn
    · have := ih hf
      omega
  | drop hle _ ih => exact (ih hf).trans hle
  | other _ _ ih => exact ih hf

/-- The calls lie as they do as long as their frames say who called them and what they are. -/
theorem congr (h : m.Stacked fs n ks) (hw : ∀ f ∈ fs, m'.slot f = m.slot f ∧ m'.slot (f + 2) = m.slot (f + 2)) :
    m'.Stacked fs n ks := by
  have code {f : Nat} (hf : m'.slot (f + 2) = m.slot (f + 2)) : m'.isCode f = m.isCode f := by rw [isCode, hf, isCode]
  have calls {f : Nat} (hf : m'.slot f = m.slot f) : m'.callerAt f = m.callerAt f := by rw [callerAt, hf, callerAt]
  induction h with
  | nil h => exact .nil h
  | activation hs hn _ ih =>
    obtain ⟨h0, h2⟩ := hw _ List.mem_cons_self
    refine .activation ⟨(code h2).trans hs.code, ?_, (calls h0).trans hs.caller, hs.height⟩ hn
      (ih fun g hg => hw g (List.mem_cons_of_mem _ hg))
    rw [isLambda, h2]
    exact hs.lambda
  | native hc hcaller hn hle _ ih =>
    obtain ⟨h0, h2⟩ := hw _ List.mem_cons_self
    exact .native ((code h2).trans hc) ((calls h0).trans hcaller) hn hle (ih fun g hg => hw g (List.mem_cons_of_mem _ hg))
  | drop hle _ ih => exact .drop hle (ih hw)
  | other hk _ ih => exact .other hk (ih hw)

end Stacked

/-! ## Where a thread is -/

/-- Code runs, or a call is about to be made or has come back that found the stack `n` slots long, or longer. -/
inductive Phase where
  | code (a : Activation)
  | call (n : Int)

namespace Phase

/-- The slot above the control words of all frames. -/
def floor : Phase → Int
  | .code a => a.frame + 8
  | .call n => n

/-- What is left to be done, that of the code that runs included. -/
def konts : Phase → List Kont → List Kont
  | .code a, ks => .activation a 0 0 .push :: ks
  | .call _, ks => ks

end Phase

variable {q : Phase}

/-- The frames of the running stack are `fs`. They have good links, and each belongs to a call that has not come back. -/
structure Tiered (m : Machine) (fs : List Nat) (q : Phase) : Prop where
  housed : m.Housed fs
  stacked : m.Stacked fs q.floor (q.konts m.context.konts)
  floor : q.floor ≤ m.context.stack.len
  room : m.context.stack.len ≤ m.context.stack.capacity
  /-- No stack is larger than memory can be. -/
  small : m.context.stack.capacity ≤ maxWords

/-- The words below slot `n` are as they were, and complete scopes are there. -/
structure KeepsBelow (m m' : Machine) (n : Int) : Prop where
  inv : m'.heap.Inv
  scopes : m.KeepsScopes m'
  capacity : m'.context.stack.capacity = m.context.stack.capacity
  frame : m'.context.frame = m.context.frame
  konts : m'.context.konts = m.context.konts
  slot : ∀ i : Nat, (i : Int) < n → m'.slot i = m.slot i

/-- Only the heap was changed, and no scope. -/
theorem KeepsBelow.of_heap (hi : m'.heap.Inv) (hs : m.KeepsScopes m') (hc : m'.context = m.context) (n : Int) :
    m.KeepsBelow m' n :=
  ⟨hi, hs, by rw [hc], by rw [hc], by rw [hc], fun i _ => by rw [Machine.slot, hc, Machine.slot]⟩

/-- Only the stack was changed. -/
theorem KeepsBelow.of_stack (hi : m.heap.Inv) (s : Stack) (hcap : s.capacity = m.context.stack.capacity)
    (hs : ∀ i : Nat, (i : Int) < n → s.slots.getD i .zero = m.slot i) : m.KeepsBelow (m.withStack s) n :=
  ⟨hi, fun _ _ hs _ => hs, hcap, rfl, rfl, hs⟩

/-- A collection keeps the scopes that a frame names, and those around them. -/
theorem Enclosed.collected (ht : m.Enclosed v top) (hr : m.Retains v) (hc : m.Collected m') :
    m'.Enclosed v top := by
  induction ht with
  | method hs hsh ho hm =>
    obtain ⟨href, hread⟩ := scope?_eq_some.1 hs
    exact .method (scope?_eq_some.2 ⟨href, hc.read _ _ hr hread⟩) hsh ho hm
  | @block v top s hs hsh ho hm ih =>
    obtain ⟨href, hread⟩ := scope?_eq_some.1 hs
    refine .block (scope?_eq_some.2 ⟨href, hc.read _ _ hr hread⟩) hsh (ih (hr.field hread ?_ ho.isRef)) hm
    have hb := hsh.base
    have hz := hsh.size
    rw [Scope.word, Array.getD_eq_getD_getElem?, Array.getElem?_eq_getElem (by omega), Option.getD_some]
    exact Array.getElem_mem_toList _

namespace Tiered

theorem wellFormed (h : m.Tiered fs q) : m.WellFormed fs := h.housed.toWellFormed

theorem inv (h : m.Tiered fs q) : m.heap.Inv := h.wellFormed.heap

/-- What leaves the control words of all frames alone leaves the calls as they lie. -/
theorem work (h : m.Tiered fs q) (hq : m.Untouched m' fs) (hframe : m'.context.frame = m.context.frame)
    (hk : m'.context.konts = m.context.konts) (hfloor : q.floor ≤ m'.context.stack.len)
    (hroom : m'.context.stack.len ≤ m'.context.stack.capacity) : m'.Tiered fs q where
  housed := h.housed.untouched hq (.refl fs) (by rw [hframe]; exact h.wellFormed.frames)
  stacked := by
    rw [hk]
    refine h.stacked.congr fun f hf => ⟨?_, hq.flags hf⟩
    exact hq.word f hf 0 (by decide) (by have := add_two_lt_frameEnd m f; omega)
  floor := hfloor
  room := hroom
  small := by
    rw [hq.capacity]
    exact h.small

theorem untouched (h : m.Tiered fs q) (hk : m.KeepsBelow m' q.floor) : m.Untouched m' fs := by
  have hword (f : Nat) (hf : f ∈ fs) (k : Nat) (hlt : f + k < m.frameEnd f) : m'.slot (f + k) = m.slot (f + k) :=
    hk.slot _ (by have := h.stacked.frameEnd_le hf; omega)
  refine ⟨hk.inv, hk.capacity, fun f hf k _ => hword f hf k, fun f hf => ?_, fun f hf k hlt top ht => ht.mono hk.scopes⟩
  rw [hword f hf.1 5 (by rw [frameEnd_code hf.2]; omega)]
  exact (h.wellFormed.linked f hf).position

theorem keepsBelow (h : m.Tiered fs q) (hk : m.KeepsBelow m' q.floor) (hfloor : q.floor ≤ m'.context.stack.len)
    (hroom : m'.context.stack.len ≤ m'.context.stack.capacity) : m'.Tiered fs q :=
  h.work (h.untouched hk) hk.frame hk.konts hfloor hroom

/-- A code frame is moved to the heap. -/
theorem move (h : m.Tiered fs q) (hf : m.CodeFrame fs f) (hrun : moveToHeap (.frameAt f) m = .ok v m') : m'.Tiered fs q := by
  obtain ⟨housed, moved⟩ := (moveToHeap_upheld (Housed.upheld fs) h.wellFormed hf h.housed).of_run hrun
  have hkonts : m'.context.konts = m.context.konts := by
    rw [← moved.rest]
    rfl
  refine ⟨housed, ?_, ?_, ?_, ?_⟩
  · rw [hkonts]
    refine h.stacked.congr fun g hg => ?_
    have hkeeps := moved.keepsFrame h.wellFormed hg
    have hend := add_two_lt_frameEnd m g
    exact ⟨hkeeps.slot (k := 0) (by omega) (by decide), hkeeps.slot hend (by decide)⟩
  · rw [moved.len]
    exact h.floor
  · rw [moved.len, moved.capacity]
    exact h.room
  · rw [moved.capacity]
    exact h.small

theorem collect {c : Collection} (h : m.Tiered fs q) (hrun : Exec.collect m = .ok c m') : m'.Tiered fs q := by
  have hc := collect_collected h.inv hrun
  have hslot (i : Nat) : m'.slot i = m.slot i := by rw [Machine.slot, hc.context, Machine.slot]
  refine h.work ⟨hc.heap, by rw [hc.context], fun f _ k _ _ => hslot _, fun f hf => ?_, fun f hf k hk top ht => ?_⟩
    (by rw [hc.context]) (by rw [hc.context]) (by rw [hc.context]; exact h.floor) (by rw [hc.context]; exact h.room)
  · rw [hslot]
    exact (h.wellFormed.linked f hf).position
  · refine ht.collected (Retains.slot ?_ ht.isRef) hc
    have hle := h.stacked.frameEnd_le hf.1
    have := h.floor
    rw [frameEnd_code hf.2] at hle
    omega

end Tiered

/-! ## Locals -/

/-- An environment that code of the thread gets at: a frame, or a complete scope. -/
inductive Owns (m : Machine) (fs : List Nat) : Env → Prop
  | stack {g : Nat} : m.CodeFrame fs g → Owns m fs (.stack g)
  | heap {v top : Value} : m.Enclosed v top → Owns m fs (.heap v)

namespace WellFormed

variable (hw : m.WellFormed fs)

include hw

theorem owns (hv : m.Leads fs v) : m.Owns fs (m.envOf v) := by
  rcases hv with ⟨hfr, hg⟩ | ⟨top, ht⟩
  · rw [envOf, if_pos hfr]
    split_ifs with hr
    · obtain ⟨top, ht⟩ := (hw.linked _ hg).copy hr
      exact .heap ht
    · exact .stack hg
  · rw [envOf_of_isRef ht.isRef]
    exact .heap ht

theorem outer_leads (he : m.Owns fs e) : ∃ o, e.outer m = .ok o m ∧ (o.isNil = true ∨ m.Leads fs o) := by
  cases he with
  | @stack g hg => exact ⟨_, hw.stack_wordAt hg rfl (by decide), hw.leads_outer hg⟩
  | @heap v top ht =>
    cases ht with
    | method hs hsh ho _ => exact ⟨_, scope_wordAt hs hsh (k := 4) rfl (by decide), .inl ho⟩
    | block hs hsh ho _ => exact ⟨_, scope_wordAt hs hsh (k := 4) rfl (by decide), .inr (.inr ⟨_, ho⟩)⟩

theorem owns_go (he : m.Owns fs e) {e' : Env} (h : outerEnv.go depth e m = .ok e' m') : m' = m ∧ m.Owns fs e' := by
  induction depth generalizing e with
  | zero =>
    cases h
    exact ⟨rfl, he⟩
  | succ depth ih =>
    obtain ⟨o, ho, hleads⟩ := hw.outer_leads he
    rw [outerEnv.go, bind_of_ok ho] at h
    cases hn : o.isNil with
    | true =>
      rw [if_pos hn] at h
      cases h
    | false =>
      rw [if_neg (by rw [hn]; decide)] at h
      dsimp only at h
      have hv := hleads.resolve_left (by rw [hn]; decide)
      rw [bind_of_ok (hw.reads_env hv).1] at h
      exact ih (hw.owns hv) h

/-- The environments around a frame are ones that its code gets at. -/
theorem owns_outerEnv (hf : m.CodeFrame fs f) (h : outerEnv f depth m = .ok e m') : m' = m ∧ m.Owns fs e := by
  rw [outerEnv, bind_of_ok (hw.frameEnv_apply hf)] at h
  exact hw.owns_go (hw.owns (hw.leads_frame hf)) h

end WellFormed

/-- Local slots are no control words: setting one that there is leaves the calls as they lie. -/
theorem Tiered.setLocal {u : Unit} {i : Nat} (h : m.Tiered fs q) (he : m.Owns fs e) (hi : i < m.slotsOf e)
    (hrun : e.setLocalAt i x m = .ok u m') : m'.Tiered fs q := by
  have hw := h.wellFormed
  cases he with
  | @stack g hg =>
    have hp := hw.frames.placed hg.1
    have hlow := hp.low
    have hhigh := hp.high
    rw [frameEnd_code hg.2] at hhigh
    have hslots : m.slotsOf (.stack g) = m.slotsAt g := rfl
    have hcount : (Env.stack g).slotCount m = .ok (m.slotsAt g : Int) m :=
      slotCount_of (hw.stack_wordAt hg rfl (by decide)) hp.flags
    rw [Env.setLocalAt, bind_of_ok hcount] at hrun
    cases hrun.symm.trans (setWord_apply (k := g - m.slotsAt g - 1 + i) (by omega) (by omega))
    have hkeep (j : Nat) (hj : j ≠ g - m.slotsAt g - 1 + i) :
        (m.poke (g - m.slotsAt g - 1 + i) x).slot j = m.slot j := by
      rw [slot_poke, if_neg hj]
    have hword (f : Nat) (hf : f ∈ fs) (k : Nat) (hk : f + k < m.frameEnd f) : f + k ≠ g - m.slotsAt g - 1 + i := by
      rcases Nat.lt_trichotomy f g with hlt | rfl | hlt
      · have := hw.frames.apart hg.1 hf hlt
        omega
      · omega
      · omega
    refine h.work ⟨hw.heap, rfl, fun f hf k _ hk => hkeep _ (hword f hf k hk), fun f hf => ?_, fun _ _ _ _ _ ht => ?_⟩ rfl rfl
      h.floor h.room
    · rw [hkeep _ (hword f hf.1 5 (by rw [frameEnd_code hf.2]; omega))]
      exact (hw.linked f hf).position
    · exact ht.mono (m := m) fun _ _ hs _ => hs
  | @heap v top ht =>
    obtain ⟨s, hs, hsh, -⟩ := ht.scope
    rw [slotsOf_heap hs] at hi
    obtain ⟨m₁, hrun₁, htouches, hs'⟩ := setLocalAt_shaped hw.heap hs hsh hi x
    cases hrun.symm.trans hrun₁
    obtain ⟨hsh', hword⟩ := hsh.put hi x
    have hc : m'.context = m.context := context_of_withHeap htouches.rest
    have hslot (i : Nat) : m'.slot i = m.slot i := by rw [Machine.slot, hc, Machine.slot]
    refine h.work ⟨htouches.inv, by rw [hc], fun f _ k _ _ => hslot _, fun f hf => ?_, fun f hf k hk top' ht' => ?_⟩ (by rw [hc])
      (by rw [hc]) (by rw [hc]; exact h.floor) (by rw [hc]; exact h.room)
    · rw [hslot]
      exact (hw.linked f hf).position
    · refine ht'.touched htouches hs' hsh' fun s₀ hs₀ => ?_
      cases hs.symm.trans hs₀
      exact ⟨hsh, hword 4 (by decide), hword 3 (by decide)⟩

/-! ## Frames that are made -/

/-- The machine with another current frame. -/
def withFrame (m : Machine) (o : Option Nat) : Machine := { m with context.frame := o }

theorem slot_withFrame (o : Option Nat) (i : Nat) : (m.withFrame o).slot i = m.slot i := rfl

theorem slot_appendAll (m : Machine) (vs : List Value) (i : Nat) :
    (m.withStack (m.context.stack.appendAll vs)).slot i = overlay m.slot m.context.stack.len vs i :=
  Stack.getD_storeAll_eq m.context.stack.slots m.context.stack.len i vs

theorem Leads.cons (hv : m.Leads fs v) : m.Leads (f :: fs) v :=
  hv.imp_left fun ⟨hfr, hg, hc⟩ => ⟨hfr, List.mem_cons_of_mem f hg, hc⟩

theorem Linked.cons (h : m.Linked fs g) : m.Linked (f :: fs) g where
  named := h.named
  outer := h.outer.imp_right (Or.imp_left fun ⟨hfr, ⟨hg, hc⟩, hlt⟩ => ⟨hfr, ⟨List.mem_cons_of_mem f hg, hc⟩, hlt⟩)
  block := h.block.imp_right (Or.imp_right (Or.imp_right fun ⟨hb, ⟨hg, hc⟩, hlt⟩ => ⟨hb, ⟨List.mem_cons_of_mem f hg, hc⟩, hlt⟩))
  copy := h.copy
  position := h.position
  code := h.code

theorem Names.cons (hv : m.Names fs g v) : m.Names (f :: fs) g v :=
  hv.imp_left fun ⟨k, hk, ⟨hmem, hc⟩, hle⟩ => ⟨k, hk, ⟨List.mem_cons_of_mem f hmem, hc⟩, hle⟩

theorem Homed.cons (h : m.Homed fs g) : m.Homed (f :: fs) g :=
  ⟨h.alone, fun hn => (h.nested hn).imp_left Names.cons⟩

/-- A frame that was made and has good links is taken for the current one. -/
theorem Housed.cons (hm : m.Housed fs) (hp : m.Placed f) (hcaller : m.callerAt f = m.context.frame)
    (hapart : ∀ g ∈ m.context.frame, m.frameEnd g + m.slotsAt f + 1 ≤ f)
    (hcode : m.isCode f = true → m.Linked (f :: fs) f ∧ m.Homed (f :: fs) f ∧ (m.slot (f + 1)).isRef = false) :
    (m.withFrame (some f)).Housed (f :: fs) := by
  have hw := hm.toWellFormed
  have linked (g : Nat) (hg : m.CodeFrame (f :: fs) g) : m.Linked (f :: fs) g ∧ m.Homed (f :: fs) g := by
    obtain ⟨hg, hc⟩ := hg
    rcases List.mem_cons.1 hg with rfl | hg
    · exact ⟨(hcode hc).1, (hcode hc).2.1⟩
    · exact ⟨(hw.linked g ⟨hg, hc⟩).cons, (hm.homed g ⟨hg, hc⟩).cons⟩
  -- Which frame is the current one does not matter to links.
  have enclosed {v top : Value} (ht : m.Enclosed v top) : (m.withFrame (some f)).Enclosed v top :=
    ht.mono (m := m) fun _ _ hs _ => hs
  refine ⟨⟨hw.heap, .cons ⟨hp.flags, hp.low, hp.high⟩ (hcaller.symm ▸ hapart) ?_, fun g hg => ?_⟩, fun g hg => ?_, fun g g' hg hg' hr he => ?_⟩
  · show Frames _ (m.callerAt f) fs
    rw [hcaller]
    exact hw.frames.mono (m := m) rfl fun g _ i _ _ _ => rfl
  · obtain ⟨hl, -⟩ := linked g hg
    exact ⟨hl.named, hl.outer.imp_right (Or.imp_right fun ⟨top, ht⟩ => ⟨top, enclosed ht⟩), hl.block,
      fun hr => (hl.copy hr).imp fun _ => enclosed, hl.position, hl.code⟩
  · obtain ⟨-, hh⟩ := linked g hg
    exact ⟨hh.alone, fun hn => (hh.nested hn).imp_left (Or.imp_right fun ⟨top, ht⟩ => ⟨top, enclosed ht⟩)⟩
  · obtain ⟨hg, hc⟩ := hg
    obtain ⟨hg', hc'⟩ := hg'
    rcases List.mem_cons.1 hg with rfl | hg
    · rw [slot_withFrame, (hcode hc).2.2] at hr
      cases hr
    · rcases List.mem_cons.1 hg' with rfl | hg'
      · rw [he, slot_withFrame, (hcode hc').2.2] at hr
        cases hr
      · exact hm.apart g g' ⟨hg, hc⟩ ⟨hg', hc'⟩ hr he

/-- What an environment that is there leads to is there. -/
theorem Housed.names_link (hm : m.Housed fs) (hv : m.Leads fs v) (hle : ∀ g ∈ fs, g ≤ f) :
    m.Names fs f (m.linkOf (m.envOf v)) := by
  rcases hv with ⟨hfr, hg⟩ | ⟨top, ht⟩
  · rw [envOf, if_pos hfr]
    split_ifs with hr
    · obtain ⟨top, ht⟩ := (hm.linked _ hg).copy hr
      rw [ht.linkOf]
      exact .inr ⟨top, ht.outermost⟩
    · exact (hm.names hg).mono (hle _ hg.1)
  · rw [envOf_of_isRef ht.isRef, ht.linkOf]
    exact .inr ⟨top, ht.outermost⟩

/-- A block that can be called: one of a frame in use, which has a word. -/
def Lends (m : Machine) (fs : List Nat) (blk : Option Block) : Prop :=
  Block.Encodable blk ∧ ∀ fn g, blk = some (.literal fn g) → m.CodeFrame fs g

theorem Lends.word {blk : Option Block} (h : m.Lends fs blk) : (Block.word blk).isNil = true ∨
    (Block.word blk).isSymbol = true ∨ (Block.word blk).isRef = true ∨
    (Block.word blk).isBlock = true ∧ m.CodeFrame fs (Block.word blk).toBlock.2 := by
  obtain ⟨henc, hframe⟩ := h
  cases henc with
  | none => exact .inl rfl
  | proc hv => exact .inr (.inr (.inl hv))
  | symbol name => exact .inr (.inl (Value.isSymbol_ofSymbol name))
  | @literal fn g hfn hg =>
    refine .inr (.inr (.inr ⟨Value.isBlock_ofBlock fn _, ?_⟩))
    show m.CodeFrame fs (Value.ofBlock fn (UInt64.ofNat g)).toBlock.2
    rw [Value.toBlock_ofBlock hfn hg]
    exact hframe fn g rfl

end Machine

end RubyMachine
