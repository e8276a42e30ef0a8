import RubyMachine.Proofs.Scope.Environments
import RubyMachine.Proofs.Threads.Framing
import RubyMachine.Proofs.Threads.Returns
import RubyMachine.Proofs.Threads.Unwinding

/-! Returns from methods. A return that a block makes ends the method at the end of the block's chain of environments,
with everything that was called since; when that method is over, it passes by all others. -/

namespace RubyMachine

open Exec

variable {m m' m₁ : Machine} {fs : List Nat} {a b : Activation} {k k' : Kont} {ks ks' rest rest' : List Kont} {v w : Value}
  {h e : Env} {f : Nat} {n pc : Int}

namespace Machine

/-! ## Frames of the calls under way -/

/-- Code runs in the frame of an activation, and the control words of all frames are as calls and moves to the heap
write them. The frames lie one below the other, each on what its call left of the stack. -/
structure Intact (m : Machine) (fs : List Nat) (a : Activation) : Prop where
  housed : m.Housed fs
  here : m.CodeFrame fs a.frame
  lambda : m.isLambda a.frame = (!a.asBlock && a.seq.kind == .block)
  lies : a.Lies m.context.stack.len
  room : m.context.stack.len ≤ m.context.stack.capacity
  piled : Piled a.height m.context.konts
  framed : ∀ b pc next p, .activation b pc next p ∈ m.context.konts → m.CodeFrame fs b.frame

/-- The next instruction is a return from a method, with `v` on the stack of its frame. -/
structure Returning (m : Machine) (a : Activation) (pc : Int) (v : Value) : Prop where
  start : 0 ≤ pc
  stop : pc < a.seq.code.size
  op : Code.Opcode.ofByte? (a.seq.code.getD pc.toNat 0) = some .methodRet
  own : (a.frame : Int) + 8 < m.context.stack.len
  top : m.context.stack.top = .ok v

/-! ## What the frame that returns reads -/

theorem Lowered.keepsFrame (hl : m.Lowered m' n) (hf : m.CodeFrame fs f) (hn : (f : Int) + 8 ≤ n) : m.KeepsFrame m' f :=
  fun i _ hi _ => hl.slot i (by rw [frameEnd_code hf.2] at hi; omega)

theorem linkOf_eq (e : Env) : m.linkOf e = m.wordOf e 3 := by
  cases e <;> rfl

/-- The words of an environment are the same with less on the stack. -/
theorem WellFormed.word_lowered (hw : m.WellFormed fs) (hf : m.CodeFrame fs f) (hl : m.Lowered m' n)
    (hn : (f : Int) + 8 ≤ n) {i : Int} {k : Nat} (hi : i = k) (hk : k < 8) :
    frameEnv f m' = .ok (m.envOf (.frameAt f)) m' ∧
      (m.envOf (.frameAt f)).wordAt i m' = .ok (m.wordOf (m.envOf (.frameAt f)) k) m' := by
  have hkeeps := hl.keepsFrame hf hn
  have hp := hkeeps.placed hl.capacity (hw.frames.placed hf.1)
  have hc : m'.isCode f = true := hkeeps.isCode.trans hf.2
  have hv := Value.isFrame_frameAt f
  have hlink := hw.linked f hf
  have hcopy : m'.slot (f + 1) = m.slot (f + 1) := hl.slot _ (by omega)
  rw [envOf_frameAt hlink.named]
  cases hr : (m.slot (f + 1)).isRef with
  | false =>
    have := hp.high
    rw [frameEnd_code hc] at this
    rw [if_neg (by decide), wordOf, ← hl.slot (f + k) (by omega)]
    exact ⟨envAt_frame hv hlink.named.symm hp hc (hcopy ▸ hr), word_apply_of (by omega) (by omega)⟩
  | true =>
    obtain ⟨top, ht⟩ := hlink.copy hr
    obtain ⟨s, hs, hsh, -⟩ := ht.scope
    have hs' : m'.scope? (m'.slot (f + 1)) = some s := by
      rw [hcopy, scope?_congr hl.heap]
      exact hs
    rw [if_pos rfl, wordOf_heap hs, ← hcopy]
    exact ⟨envAt_moved hv hlink.named.symm hp hc hs', scope_wordAt hs' (hcopy ▸ hsh) hi hk⟩

theorem WellFormed.lambda_lowered (hw : m.WellFormed fs) (hf : m.CodeFrame fs f) (hl : m.Lowered m' n)
    (hn : (f : Int) + 8 ≤ n) : isLambdaFrame f m' = .ok (m.isLambda f) m' := by
  have hk := hl.keepsFrame hf hn
  have hp := hk.placed hl.capacity (hw.frames.placed hf.1)
  have hhigh := hp.high
  rw [frameEnd_code (hk.isCode.trans hf.2)] at hhigh
  have hword : word (f + Frame.flagWord) m' = .ok (m.slot (f + 2)) m' := by
    rw [← hl.slot (f + 2) (by omega)]
    exact word_apply_of rfl (by omega)
  rw [isLambdaFrame, frameFlags, bind_assoc, bind_of_ok hword, Value.asFixnum, if_pos (hw.frames.placed hf.1).flags]
  rfl

/-- The machine when a value of its own is taken from the stack of a frame. -/
theorem pop_own (own : (a.frame : Int) + 8 < m.context.stack.len) (top : m.context.stack.top = .ok v) :
    ∃ m', pop m = .ok v m' ∧ m.Lowered m' (m.context.stack.len - 1) ∧ m'.context.konts = m.context.konts := by
  have htop : (liftM m.context.stack.top : Exec Value) m = .ok v m := by
    rw [top]
    rfl
  refine ⟨{ m with context.stack := m.context.stack.cut (m.context.stack.len - 1) .nil }, bind_of_ok htop,
    lowered_cut (by omega) (by omega) .nil _ ?_ rfl, rfl⟩
  show m.context.stack.cut _ _ = _
  congr 1
  omega

/-! ## The instruction -/

/-- An instruction that ends the activation. -/
theorem step_exit {op : Code.Opcode} (start : 0 ≤ pc) (stop : pc < a.seq.code.size)
    (hop : Code.Opcode.ofByte? (a.seq.code.getD pc.toNat 0) = some op) {r : Except Failure Value} {c : Control} {m' : Machine}
    (hexit : (Site.perform ⟨a, pc.toNat, op⟩).run m = .ok (.ok (.leave r)) m₁) (hleave : Exec.leave a r m₁ = .ok c m') :
    step (.exec a pc) m = .ok (.inl c) m' := by
  have hexec : exec a pc m = Exec.leave a r m₁ := by
    unfold exec
    rw [if_neg (not_le.2 stop), if_neg (not_lt.2 start)]
    dsimp only
    rw [hop]
    exact bind_of_ok hexit
  exact bind_of_ok (hexec.trans hleave)

namespace Intact

variable (ha : m.Intact fs a)

include ha

/-- The machine when a value is taken from the stack of the frame that runs. -/
theorem popped (own : (a.frame : Int) + 8 < m.context.stack.len) (top : m.context.stack.top = .ok v) :
    ∃ m₀, pop m = .ok v m₀ ∧ m₀.context.konts = m.context.konts ∧ m.Lowered m₀ (m.context.stack.len - 1) ∧
    a.Lies m₀.context.stack.len ∧ m₀.context.stack.len ≤ m₀.context.stack.capacity := by
  obtain ⟨m₀, hpop, hlow, hkonts⟩ := pop_own own top
  have := hlow.len
  refine ⟨m₀, hpop, hkonts, hlow, ⟨ha.lies.bottom, ha.lies.height, by omega⟩, ?_⟩
  have := hlow.capacity
  have := ha.room
  omega

/-- In the frame of a block that was not called as a lambda, the instruction gives a signal for the method that the
frame leads to. -/
theorem exit_block (hr : m.Returning a pc v) (hk : a.seq.kind = .block) (hl : m.isLambda a.frame = false) :
    ∃ m₁, step (.exec a pc) m = .ok (.inl (.deliver (.error (.methodReturn v (m.methodOf a.frame))))) m₁ ∧
      m₁.context.konts = m.context.konts ∧ m.Lowered m₁ a.height := by
  have own := hr.own
  obtain ⟨m₀, hpop, hkonts, hlow, hlies, hroom⟩ := ha.popped own hr.top
  have hw := ha.housed.toWellFormed
  obtain ⟨henv, hword⟩ := hw.word_lowered ha.here hlow (by omega) (i := Frame.methodWord) (k := 3) rfl (by decide)
  have hmethod : (m.envOf (.frameAt a.frame)).method m₀ = .ok (m.methodOf a.frame) m₀ := by
    rw [methodOf, linkOf_eq]
    exact hword
  have hlambda := hw.lambda_lowered ha.here hlow (by omega)
  have hexit : (Site.exit ⟨a, pc.toNat, .methodRet⟩).run m =
      .ok (.ok (.leave (.error (.methodReturn v (m.methodOf a.frame))))) m₀ := by
    unfold Site.exit
    rw [run_liftM_bind, bind_of_ok hpop]
    dsimp only
    rw [run_liftM_bind, bind_of_ok hlambda, hk, hl, if_pos (by decide), run_liftM_bind, Site.env, bind_of_ok henv,
      run_liftM_bind, bind_of_ok hmethod]
    rfl
  have hblock : a.asBlock = true := by simpa [hl, hk] using ha.lambda
  have hleave := leave_error (f := .methodReturn v (m.methodOf a.frame)) rfl hlies hroom
  rw [hblock] at hleave
  exact ⟨_, step_exit hr.start hr.stop hr.op hexit hleave, hkonts, hlow.back hlies⟩

/-- In the frame of a lambda, the instruction gives the value of the call. -/
theorem exit_lambda (hr : m.Returning a pc v) (hl : m.isLambda a.frame = true) :
    ∃ m₁, step (.exec a pc) m = .ok (.inl (.deliver (.ok v))) m₁ ∧
      m₁.context.konts = m.context.konts ∧ m₁.context.frame = a.caller ∧ m.Lowered m₁ a.height := by
  have own := hr.own
  obtain ⟨m₀, hpop, hkonts, hlow, hlies, -⟩ := ha.popped own hr.top
  have hlambda := ha.housed.toWellFormed.lambda_lowered ha.here hlow (by omega)
  have hexit : (Site.exit ⟨a, pc.toNat, .methodRet⟩).run m = .ok (.ok (.leave (.ok v))) m₀ := by
    unfold Site.exit
    rw [run_liftM_bind, bind_of_ok hpop]
    dsimp only
    rw [run_liftM_bind, bind_of_ok hlambda, hl, if_neg (by simp)]
    rfl
  exact ⟨_, step_exit hr.start hr.stop hr.op hexit (leave_ok v hlies), hkonts, rfl, hlow.back hlies⟩

end Intact

/-! ## The way home -/

end Machine

/-- An activation in the environment `h`. -/
def Kont.IsIn (m : Machine) (h : Env) : Kont → Prop
  | .activation b _ _ _ => frameEnv b.frame m = .ok h m
  | _ => False

/-- The activation of a method in the environment `h`. -/
def Kont.IsHome (m : Machine) (h : Env) : Kont → Prop
  | .activation b _ _ _ => b.asBlock = false ∧ frameEnv b.frame m = .ok h m
  | _ => False

theorem Kont.IsHome.isIn (hk : k.IsHome m h) : k.IsIn m h := by
  cases k with
  | activation b pc next p => exact hk.2
  | _ => exact hk

namespace Machine

/-- Where the signal `f` goes that was given in `m` for the method in the environment `h`, and left the activation that
gave it in `m₁`. -/
structure Homing (m m₁ : Machine) (f : Failure) (h : Env) : Prop where
  /-- There is at most one such method on the thread. -/
  one : ∀ ks k rest ks' k' rest', m.context.konts = ks ++ k :: rest → m.context.konts = ks' ++ k' :: rest' →
    k.IsHome m h → k'.IsHome m h → ks = ks' ∧ k = k' ∧ rest = rest'
  /-- When there is one, the signal ends it with its value, and all that it waited for. -/
  home : ∀ ks b pc next p rest, m.context.konts = ks ++ .activation b pc next p :: rest → (∀ k ∈ ks, k.isEnd = false) →
    (Kont.activation b pc next p).IsHome m h →
      ∃ m₂ m₃, Unwinds f m₁ m₂ ∧ step (.deliver (.error f)) m₂ = .ok (.inl (.deliver (.ok f.value))) m₃ ∧
        m₃.context.konts = rest ∧ m₃.context.frame = b.caller ∧ m.Lowered m₃ b.height
  /-- The signal gets past all else, up to where calls of the host and threads end. -/
  past : ∀ ks rest, m.context.konts = ks ++ rest → (∀ k ∈ ks, k.isEnd = false) → (∀ k ∈ ks, ¬k.IsHome m h) →
    ∃ m₂, Unwinds f m₁ m₂ ∧ m₂.context.konts = rest
  /-- It is what comes of the thread when there is no such method. -/
  out : (∀ k ∈ m.context.konts, k.isEnd = false) → (∀ k ∈ m.context.konts, ¬k.IsHome m h) →
    ∃ m₂, Unwinds f m₁ m₂ ∧ step (.deliver (.error f)) m₂ = .ok (.inr (.done (.error f))) m₂

namespace Intact

/-- There is at most one activation in an environment: two would have the same frame. -/
theorem one (ha : m.Intact fs a) (hks : m.context.konts = ks ++ k :: rest) (hks' : m.context.konts = ks' ++ k' :: rest')
    (hk : k.IsIn m h) (hk' : k'.IsIn m h) : ks = ks' ∧ k = k' ∧ rest = rest' := by
  have away {ks rest : List Kont} {k k' : Kont} (hks : m.context.konts = ks ++ k :: rest) (hk : k.IsIn m h)
      (hk' : k'.IsIn m h) : k' ∉ rest := by
    intro hmem
    have hpile := (piled_append.1 (hks ▸ ha.piled)).2
    cases k with
    | activation b pc next p =>
      cases k' with
      | activation b' pc' next' p' =>
        have hb := ha.framed b pc next p (hks ▸ by simp)
        have hb' := ha.framed b' pc' next' p' (hks ▸ by simp [hmem])
        have hw := ha.housed.toWellFormed
        have same := ha.housed.frame_unique hb hb'
          (((hw.frameEnv_iff hb).1 hk).trans ((hw.frameEnv_iff hb').1 hk').symm)
        exact (hpile.frame_lt hmem).ne same.symm
      | _ => exact hk'
    | _ => exact hk
  rcases List.append_eq_append_iff.1 (hks.symm.trans hks') with ⟨t, hpre, ht⟩ | ⟨t, hpre, ht⟩ <;>
    rcases List.cons_eq_append_iff.1 ht with ⟨rfl, he⟩ | ⟨t', rfl, he⟩
  · cases he
    exact ⟨(hpre.trans (List.append_nil _)).symm, rfl, rfl⟩
  · exact absurd (he ▸ by simp) (away hks hk hk')
  · cases he
    exact ⟨hpre.trans (List.append_nil _), rfl, rfl⟩
  · exact absurd (he ▸ by simp) (away hks' hk' hk)

theorem takes_iff (ha : m.Intact fs a) (hw : m.Names fs f w) (hk : k ∈ m.context.konts) :
    k.takes m (.methodReturn v w) = true ↔ k.IsHome m (m.envOf w) := by
  cases k with
  | activation b pc next p =>
    show (_ && _) = true ↔ _ ∧ _
    have hb := ha.framed b pc next p hk
    rw [Bool.and_eq_true, Bool.not_eq_true', ha.housed.toWellFormed.frameEnv_iff hb, ← ha.housed.isNamed_iff hw hb]
    rfl
  | _ => exact iff_of_false Bool.false_ne_true id

/-- A signal that left the frame gets past what does not stop it. -/
theorem past {f : Failure} (ha : m.Intact fs a) (hf : f.kind.isControl = true) (hl : m.Lowered m₁ a.height)
    (hkonts : m₁.context.konts = m.context.konts) (hks : m.context.konts = ks ++ rest) (hend : ∀ k ∈ ks, k.isEnd = false)
    (hn : ∀ k ∈ ks, k.stops m f = false) : ∃ m₂, Unwinds f m₁ m₂ ∧ m₂.context.konts = rest ∧
      m.Lowered m₂ (floors a.height ks) ∧ Piled (floors a.height ks) rest ∧
      m₂.context.stack.len < m₂.context.stack.capacity := by
  obtain ⟨hpre, hpost⟩ := piled_append.1 (hks ▸ ha.piled)
  have hlen := hl.len
  have hcap := hl.capacity
  have hheight := ha.lies.height
  have htop := ha.lies.top
  have hroom := ha.room
  obtain ⟨m₂, hun, hrest, hlow⟩ := unwinds_all hf (hkonts.trans hks) hend (hlen ▸ hpre) (by omega) fun k hk =>
    (hl.stops ha.piled (hks ▸ List.mem_append_left _ hk)).trans (hn k hk)
  rw [hlen] at hlow
  refine ⟨m₂, hun, hrest, hl.trans hlow hpre.floors_le, hpost, ?_⟩
  have := hlow.len
  have := hlow.capacity
  have := hpre.floors_le
  omega

theorem homing (ha : m.Intact fs a) (hw : m.Names fs f w) (hl : m.Lowered m₁ a.height)
    (hkonts : m₁.context.konts = m.context.konts) : m.Homing m₁ (.methodReturn v w) (m.envOf w) := by
  have past (ks rest : List Kont) (hks : m.context.konts = ks ++ rest) (hend : ∀ k ∈ ks, k.isEnd = false)
      (hn : ∀ k ∈ ks, ¬k.IsHome m (m.envOf w)) := ha.past (f := .methodReturn v w) rfl hl hkonts hks hend fun k hk => by
    rw [← Kont.takes_eq_stops rfl]
    exact Bool.eq_false_of_not_eq_true fun ht =>
      hn k hk ((ha.takes_iff hw (hks ▸ List.mem_append_left _ hk)).1 ht)
  refine ⟨fun ks k rest ks' k' rest' hks hks' hk hk' => ha.one hks hks' hk.isIn hk'.isIn,
    fun ks b pc next p rest hks hend hb => ?_, fun ks rest hks hend hn => ?_, fun hend hn => ?_⟩
  · have hn (k : Kont) (hk : k ∈ ks) : ¬k.IsHome m (m.envOf w) := fun hhome => by
      obtain ⟨l, r, rfl⟩ := List.append_of_mem hk
      have hpre := (ha.one hks (by rw [hks, List.append_assoc]; rfl) hb.isIn hhome.isIn).1
      simp at hpre
    obtain ⟨m₂, hun, hrest, hlow, hpost, hroom⟩ := past ks _ hks hend hn
    have hmem : .activation b pc next p ∈ m.context.konts := hks ▸ by simp
    have htakes : (Kont.activation b pc next p).takes m₂ (.methodReturn v w) = true := by
      rw [Kont.takes_eq_stops rfl, hlow.stops hpost List.mem_cons_self, ← Kont.takes_eq_stops rfl]
      exact (ha.takes_iff hw hmem).2 hb
    obtain ⟨m₃, hstep, hback, hk₃, hframe⟩ :=
      step_taken (f := .methodReturn v w) rfl hrest (hlow.len ▸ hpost.1) hroom.le htakes
    exact ⟨m₂, m₃, hun, hstep, hk₃, hframe, hlow.trans hback hpost.1.floor_le⟩
  · obtain ⟨m₂, hun, hrest, -⟩ := past ks rest hks hend hn
    exact ⟨m₂, hun, hrest⟩
  · obtain ⟨m₂, hun, hrest, -⟩ := past _ [] (List.append_nil _).symm hend hn
    exact ⟨m₂, hun, deliver_nil hrest⟩

end Intact

/-- As `Intact`, of frames that have not been moved. -/
def Plain (m : Machine) (fs : List Nat) (a : Activation) : Prop :=
  m.Unmoved fs ∧ (∀ f ∈ fs, m.isCode f = true → m.Direct f) ∧ m.CodeFrame fs a.frame ∧
  m.isLambda a.frame = (!a.asBlock && a.seq.kind == .block) ∧ a.Lies m.context.stack.len ∧
  m.context.stack.len ≤ m.context.stack.capacity ∧ Piled a.height m.context.konts ∧
  m.context.konts.all fun
    | .activation b _ _ _ => decide (m.CodeFrame fs b.frame)
    | _ => true

instance : Decidable (m.Plain fs a) := inferInstanceAs (Decidable (_ ∧ _))

theorem Plain.intact (h : m.Plain fs a) (hi : m.heap.Inv) : m.Intact fs a := by
  obtain ⟨unmoved, direct, here, lambda, lies, room, piled, framed⟩ := h
  refine ⟨unmoved.housed hi direct, here, lambda, lies, room, piled, fun b pc next p hb => ?_⟩
  exact of_decide_eq_true (List.all_eq_true.1 framed _ hb)

instance (x : Except Defect Value) : Decidable (x = .ok v) :=
  match x with
  | .ok w => decidable_of_iff (w = v) (by rw [Except.ok.injEq])
  | .error _ => isFalse (by intro h; cases h)

instance : Decidable (m.Returning a pc v) :=
  decidable_of_iff (0 ≤ pc ∧ pc < a.seq.code.size ∧
    Code.Opcode.ofByte? (a.seq.code.getD pc.toNat 0) = some .methodRet ∧ (a.frame : Int) + 8 < m.context.stack.len ∧
      m.context.stack.top = .ok v)
    ⟨fun h => ⟨h.1, h.2.1, h.2.2.1, h.2.2.2.1, h.2.2.2.2⟩, fun h => ⟨h.start, h.stop, h.op, h.own, h.top⟩⟩

end Machine

/-- A method that sends itself the name of a loop, with a block. -/
def Code.looping : Code.Sequence where
  name := .none
  kind := .method
  code := #[Opcode.pushSelf.byte, Opcode.send.byte, 0, 0, 0, 0, 0, 0, 0, 2, 0, 0, 0, 0, 0, 0, 0, Opcode.ret.byte]
  methodSites := 1

/-- A block that returns 1 from its method. -/
def Code.returning : Code.Sequence where
  name := .none
  kind := .block
  code := #[Opcode.pushVal.byte, 1, 0, 0, 0, 0, 0, 0xFA, 0x7F, Opcode.methodRet.byte]

/-- The same, once local 4 is nil. There is none, and the slot is that of the link to the method. -/
def Code.straying : Code.Sequence where
  name := .none
  kind := .block
  code := #[Opcode.pushNil.byte, Opcode.setLocal.byte, 4, 0, 0, 0, Opcode.pushVal.byte, 1, 0, 0, 0, 0, 0, 0xFA, 0x7F,
    Opcode.methodRet.byte]

namespace Machine

/-- An object that loops. -/
def giveLooper : Exec Unit := do
  let loop ← addFunction { name := .none, body := .builtin .loop, arity := .atLeast 0 }
  let cls ← allocModule .none none false
  defineMethod cls .none loop
  let _ ← newObject cls

theorem kept_giveLooper {P : Machine → Prop} (hP : Keeping.Stable P) : Keeping.Kept P giveLooper := by
  unfold giveLooper
  refine .bind (fun _ hm => hP.addFunction hm fun _ h => nomatch h) fun loop => ?_
  refine .bind (hP.kept_allocModule _ _ _) fun cls => .bind (hP.kept_defineMethod _ _ _) fun _ => ?_
  exact .bind (hP.alloc fun _ h => nomatch h) fun _ => Keeping.kept_pure _

def looper : Value := Heap.firstRef 1

def withCode (block : Code.Sequence) : Machine := after (addSequence block) (after (addSequence Code.looping) (.blank {}))

def withLooper (block : Code.Sequence) : Machine := after giveLooper (withCode block)

theorem tended_addSequence (m : Machine) {seq : Code.Sequence} (hs : Function.canHoldSites seq = true) :
    m.Tended (after (addSequence seq) m) := by
  have added : after (addSequence seq) m = { m with functions := (m.functions.add (.ofSequence seq)).2 } := by
    unfold after addSequence
    rw [hs]
    rfl
  refine ⟨?_, ?_, Sound.kept_addSequence seq m⟩
  · rw [added]
    exact .of_stack _ rfl rfl rfl rfl
  · rw [added]

set_option maxRecDepth 4000 in
theorem underway_withLooper {block : Code.Sequence} (hs : Function.canHoldSites block = true)
    (hc : (withLooper block).context = (withCode block).context) : Underway (.host .idle) (withLooper block) := by
  have first : Underway (.host .idle) (withCode block) :=
    .next (.next (.blank {} .idle) (.tend (tended_addSequence _ (by decide)))) (.tend (tended_addSequence _ hs))
  exact .next first (.tend ⟨kept_giveLooper (Steady.stable _) _ (.refl _), hc, kept_giveLooper Sound.stable _⟩)

set_option maxRecDepth 4000 in
theorem underway_returning : Underway (.host .idle) (withLooper Code.returning) := underway_withLooper (by decide) rfl

set_option maxRecDepth 4000 in
theorem underway_straying : Underway (.host .idle) (withLooper Code.straying) := underway_withLooper (by decide) rfl

/-- What `looper` is at after some steps in its method. -/
def loopFor (block : Code.Sequence) (n : Nat) : Option (Control × Machine) :=
  Move.all (.enter (.method ⟨1⟩ looper []) :: List.replicate n .step) (.host .idle) (withLooper block)

/-- The first call of a thread is that of a method in the frame at `f`, and no other one is waited for by the host. -/
def Outermost (m : Machine) (f : Nat) : Prop :=
  (m.context.konts.getLast?.any fun
    | .activation b _ _ _ => !b.asBlock && b.frame == f
    | _ => false) ∧ m.context.konts.all fun k => !k.isEnd

instance : Decidable (m.Outermost f) := inferInstanceAs (Decidable (_ ∧ _))

theorem Outermost.last (h : m.Outermost f) (he : frameEnv f m = .ok e m) : ∃ ks b pc next p,
    m.context.konts = ks ++ [.activation b pc next p] ∧ (Kont.activation b pc next p).IsHome m e ∧
    ∀ k ∈ m.context.konts, k.isEnd = false := by
  obtain ⟨hlast, hends⟩ := h
  obtain ⟨k, hk, hmethod⟩ := (Option.any_eq_true _ _).mp hlast
  obtain ⟨ks, hks⟩ := List.getLast?_eq_some_iff.1 hk
  cases k with
  | activation b pc next p =>
    rw [Bool.and_eq_true, Bool.not_eq_true', beq_iff_eq] at hmethod
    obtain ⟨method, rfl⟩ := hmethod
    exact ⟨ks, b, pc, next, p, hks, ⟨method, he⟩, fun k hk => by simpa using List.all_eq_true.1 hends k hk⟩
  | _ => cases hmethod

/-- Code goes on at `pc`. -/
def atCode (pc : Int) (P : Activation → Machine → Bool) : Control × Machine → Bool
  | (.exec a i, m) => i == pc && P a m
  | _ => false

/-- The signal of a return is left when nothing else is. -/
def isLeft : Control × Machine → Bool
  | (.deliver (.error f), m) => f.kind == .methodReturn && m.context.konts.isEmpty
  | _ => false

theorem exists_of_atCode {x : Option (Control × Machine)} {P : Activation → Machine → Bool} (h : x.any (atCode pc P) = true) :
    ∃ a m, x = some (.exec a pc, m) ∧ P a m = true := by
  obtain ⟨⟨c, m⟩, hx, h⟩ := (Option.any_eq_true _ _).mp h
  cases c with
  | exec a i =>
    rw [atCode, Bool.and_eq_true, beq_iff_eq] at h
    obtain ⟨rfl, hp⟩ := h
    exact ⟨a, m, hx, hp⟩
  | _ => cases h

theorem exists_of_isLeft {x : Option (Control × Machine)} (h : x.any isLeft = true) :
    ∃ f m, x = some (.deliver (.error f), m) ∧ f.kind = .methodReturn ∧ m.context.konts = [] := by
  obtain ⟨⟨c, m⟩, hx, h⟩ := (Option.any_eq_true _ _).mp h
  cases c with
  | deliver r =>
    cases r with
    | error f =>
      rw [isLeft, Bool.and_eq_true, beq_iff_eq, List.isEmpty_iff] at h
      exact ⟨f, m, hx, h⟩
    | ok v => cases h
  | _ => cases h

end Machine

end RubyMachine
