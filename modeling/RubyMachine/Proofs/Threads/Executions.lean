import RubyMachine.Proofs.Machine.Likewise
import RubyMachine.Proofs.Threads.Balance
import RubyMachine.Proofs.Threads.Exchange

/-! The execution of a stretch of code, together with all that it calls. It is over as soon as the thread is back at the
code and outside of the stretch. -/

namespace RubyMachine

open Exec

variable {m m' m₁ : Machine} {c c' : Control} {p q : Mark} {id : Nat} {b : Bool}

/-! ## Chains -/

namespace Machine

/-- The threads are in one chain with the root at its end, and others were put aside. -/
def Threaded (m : Machine) : Prop := Chained (m.chain.map Context.fiber) m.fibers

namespace Threaded

theorem defers (hm : m.Threaded) (h : m.Defers p m' q) : m'.Threaded := by
  unfold Threaded
  rw [h.chain]
  refine ⟨hm.root, hm.distinct, fun id hid => ?_, fun id x hx => ?_⟩
  · obtain ⟨hlt, ha, hn⟩ := hm.live id hid
    refine ⟨hlt.trans_le h.size, (h.fibers id).active.trans ha, ?_⟩
    exact (h.fibers id).context.elim (·.trans hn) And.left
  · rcases (h.fibers id).context with hc | ⟨hc, -⟩
    · exact hm.own id x (hc ▸ hx)
    · cases hc.symm.trans hx

theorem enters (hm : m.Threaded) (h : m.Enters id m') : m'.Threaded := by
  have fiber : m'.context.fiber = some id := h.context.elim (hm.own id _) (·.2.1)
  have chain : m'.chain.map Context.fiber = some id :: m.chain.map Context.fiber := by
    rw [Machine.chain, h.waiting, List.map_cons, fiber]
    rfl
  have out : some id ∉ m.chain.map Context.fiber := fun hi => by cases h.inactive.symm.trans (hm.live id hi).2.1
  unfold Threaded
  rw [chain]
  refine ⟨?_, List.nodup_cons.mpr ⟨out, hm.distinct⟩, fun i hi => ?_, fun i x hx => ?_⟩
  · obtain ⟨ids, hids⟩ := hm.root
    exact ⟨id :: ids, congrArg (some id :: ·) hids⟩
  · rw [h.size]
    rcases List.mem_cons.mp hi with he | hi
    · cases he
      exact ⟨h.there, h.active, h.entered⟩
    · rw [h.others i fun he => out (he ▸ hi)]
      exact hm.live i hi
  · by_cases he : i = id
    · subst he
      cases h.entered.symm.trans hx
    · exact hm.own i x (h.others i he ▸ hx)

theorem leaves (hm : m.Threaded) (h : m.Leaves id m') : m'.Threaded := by
  have chain : m.chain.map Context.fiber = some id :: m'.chain.map Context.fiber := by
    rw [Machine.chain, h.waiting, List.map_cons, h.fiber]
    rfl
  have hm' := hm
  unfold Threaded at hm' ⊢
  rw [chain] at hm'
  have out : some id ∉ m'.chain.map Context.fiber := (List.nodup_cons.mp hm'.distinct).1
  refine ⟨?_, (List.nodup_cons.mp hm'.distinct).2, fun i hi => ?_, fun i x hx => ?_⟩
  · obtain ⟨ids, hids⟩ := hm'.root
    cases ids with
    | nil => cases hids
    | cons i ids => exact ⟨ids, (List.cons.inj hids).2⟩
  · rw [h.size, h.others i fun he => out (he ▸ hi)]
    exact hm'.live i (List.mem_cons_of_mem _ hi)
  · by_cases he : i = id
    · subst he
      exact (h.own x hx).elim (hm.own i x) And.left
    · exact hm.own i x (h.others i he ▸ hx)

theorem goes (hm : m.Threaded) (h : m.Goes p b c m') : m'.Threaded := by
  cases h with
  | on hd _ => exact hm.defers hd
  | enter hd he hd' _ => exact ((hm.defers hd).enters he).defers hd'
  | suspend hd hl => exact (hm.defers hd).leaves hl
  | finish hd hl _ => exact (hm.defers hd).leaves hl

theorem next (hl : m.Threaded) (hm : m.Ordered) (hc : m.Ready c) (h : Next c m c' m') : m'.Threaded := by
  rcases h.goes hm.numbered hc.fits with hg | ⟨r, k, rest, rfl, hk, hg⟩
  · exact hl.goes hg
  · obtain ⟨q, ho⟩ := hc.owes
    rw [hk] at ho
    exact goes (m := { m with context.konts := rest }) hl (hg ho.1)

end Threaded

end Machine

theorem Underway.threaded (h : Underway c m) : m.Threaded := by
  induction h with
  | blank options h => exact (Machine.Accounted.blank options).chained
  | boot options h =>
    obtain ⟨-, -, -, hs, -⟩ := (Machine.Steady.logic (.blank options)).boot (K := .anything 1) Nat.one_pos
      (Known.all_anything 1) _ (.refl _)
    exact Machine.Threaded.defers (m := .blank options) (Machine.Accounted.blank options).chained
      (.of_steady (p := (Machine.blank options).context.mark) hs)
  | next h hn ih => exact ih.next h.ordered.1 h.ordered.2 hn
  | restart h _ ih => exact ih

/-! ## Machines that are alike -/

/-- The machines differ at most in slots that are not live, and in what is left to be done on their threads. -/
def Machine.Resembles (m m' : Machine) : Prop := (m.mapKonts fun _ _ => []).Alike (m'.mapKonts fun _ _ => [])

namespace Machine

theorem Resembles.symm (h : m.Resembles m') : m'.Resembles m := Alike.symm h

theorem Alike.resembles (h : m.Alike m') : m.Resembles m' := by
  obtain ⟨s, hs, rfl⟩ := h
  exact ⟨s, hs, rfl⟩

/-- Other continuations do not matter. -/
theorem resembles_mapKonts (m : Machine) (κ : Option Nat → List Kont → List Kont) : m.Resembles (m.mapKonts κ) := by
  have erased (x : Context) : (x.mapKonts κ).mapKonts (fun _ _ => []) = x.mapKonts fun _ _ => [] := rfl
  have waiting : (m.waiting.map (Context.mapKonts κ)).map (Context.mapKonts fun _ _ => []) =
      m.waiting.map (Context.mapKonts fun _ _ => []) := List.map_map ..
  have fibers : (m.fibers.map (Fiber.mapKonts κ)).map (Fiber.mapKonts fun _ _ => []) =
      m.fibers.map (Fiber.mapKonts fun _ _ => []) := by
    rw [Array.map_map]
    refine congrArg (m.fibers.map ·) (funext fun f => ?_)
    exact congrArg (fun x => { f with context := x }) (Option.map_map ..)
  have same : (m.mapKonts κ).mapKonts (fun _ _ => []) = m.mapKonts fun _ _ => [] :=
    congrArg₂ (fun waiting fibers => { m.mapKonts (fun _ _ => []) with waiting, fibers }) waiting fibers
  rw [Resembles, same]
  exact .refl _

end Machine

/-! ## Moments -/

/-- A machine at something, with what was left to be done on a thread each time that the host made a call there. -/
structure Moment where
  control : Control
  machine : Machine
  calls : List (List Kont) := []

namespace Moment

/-- What comes next. The host has the outcome of a call on the thread `t` only when it has made one there. -/
inductive Leads (t : Option Nat) : Moment → Moment → Prop where
  | step {c c' : Control} {m m' : Machine} {H : List (List Kont)} : step c m = .ok (.inl c') m' → Leads t ⟨c, m, H⟩ ⟨c', m', H⟩
  | tend {h : HostCall} {m m' : Machine} {H : List (List Kont)} : m.Tended m' → Leads t ⟨.host h, m, H⟩ ⟨.host h, m', H⟩
  | enter {h : HostCall} {c : Control} {m m' : Machine} {H : List (List Kont)} (entry : Entry) : entry.start m = .ok c m' →
      Leads t ⟨.host h, m, H⟩ ⟨c, m', if m.context.fiber = t then m.context.konts :: H else H⟩
  | back {r : Except Failure Value} {m : Machine} {H : List (List Kont)} (h : HostCall) :
      (m.context.fiber = t → m.context.konts ∈ H) → Leads t ⟨.deliver r, m, H⟩ ⟨.host h, m, H⟩
  | answer {h : HostCall} {m : Machine} {H : List (List Kont)} (r : Except Failure Value) :
      Leads t ⟨.host h, m, H⟩ ⟨.deliver r, m, H⟩

theorem Leads.next {t : Option Nat} {p q : Moment} (h : p.Leads t q) : Next p.control p.machine q.control q.machine := by
  cases h with
  | step h => exact .step h
  | tend h => exact .tend h
  | enter entry h => exact .enter entry h
  | back h => exact .back h
  | answer r => exact .answer r

/-- The threads are in order, and what is being done can be done. -/
structure Orderly (p : Moment) : Prop where
  ordered : p.machine.Ordered
  ready : p.machine.Ready p.control
  threaded : p.machine.Threaded

theorem Orderly.next {t : Option Nat} {p q : Moment} (h : p.Orderly) (hx : p.Leads t q) : q.Orderly := by
  obtain ⟨ordered, ready⟩ := h.ordered.next h.ready hx.next
  exact ⟨ordered, ready, h.threaded.next h.ordered h.ready hx.next⟩

/-- The same is being done, in machines that resemble each other. -/
def Resembles (p q : Moment) : Prop := q.control = p.control ∧ p.machine.Resembles q.machine

theorem Resembles.symm {p q : Moment} (h : p.Resembles q) : q.Resembles p := ⟨h.1.symm, h.2.symm⟩

end Moment

/-! ## Stretches of code -/

/-- Some places in the code of an activation, gone through on a thread on which there is something else left to be done
afterwards. -/
structure Stretch where
  act : Activation
  places : List Int
  thread : Option Nat
  konts : List Kont

/-- What comes of an execution: what is to be done next, or a defect. -/
abbrev Outturn := EStateM.Result Defect Machine Control

namespace Stretch

/-- The thread is at the code, and not in a call that was made there. -/
def At (s : Stretch) (m : Machine) : Prop := m.context.fiber = s.thread ∧ m.context.konts = s.konts

def Inside (s : Stretch) (c : Control) (m : Machine) : Prop := s.At m ∧ ∃ pc ∈ s.places, c = .exec s.act pc

/-- What comes of it when a stretch of code is gone on with, and the moments in between at which the thread is away from the
code. -/
inductive Executes (s : Stretch) : Moment → List Moment → Outturn → Prop where
  | fails {p : Moment} {d : Defect} {m : Machine} : step p.control p.machine = .error d m → Executes s p [] (.error d m)
  | leaves {p q : Moment} : p.Leads s.thread q → s.At q.machine → ¬s.Inside q.control q.machine →
      Executes s p [] (.ok q.control q.machine)
  | stays {p q : Moment} {trail : List Moment} {o : Outturn} : p.Leads s.thread q → s.Inside q.control q.machine →
      Executes s q trail o → Executes s p trail o
  | away {p q : Moment} {trail : List Moment} {o : Outturn} : p.Leads s.thread q → ¬s.At q.machine → Executes s q trail o →
      Executes s p (q :: trail) o

end Stretch

/-! ## Executions without calls -/

/-- The same as the outcome of a step. -/
def stepped : Outturn → EStateM.Result Defect Machine (Control ⊕ Outcome)
  | .ok c m => .ok (.inl c) m
  | .error d m => .error d m

theorem stepped_bind (x : Exec Control) (m : Machine) : (x >>= fun c => pure (.inl c) : Exec (Control ⊕ Outcome)) m = stepped (x m) := by
  rw [bind_apply]
  cases x m <;> rfl

theorem stepped_eq_ok {o : Outturn} (h : stepped o = .ok (.inl c) m) : o = .ok c m := by
  cases o <;> cases h
  rfl

theorem stepped_eq_error {o : Outturn} {d : Defect} (h : stepped o = .error d m) : o = .error d m := by
  cases o <;> cases h
  rfl

/-- The step from here comes to `o`, and nothing else may come next. -/
structure Moment.Steps (t : Option Nat) (p : Moment) (o : Outturn) : Prop where
  step : step p.control p.machine = stepped o
  only : ∀ q, p.Leads t q → o = .ok q.control q.machine ∧ q.calls = p.calls

namespace Moment.Steps

variable {t : Option Nat} {H : List (List Kont)}

theorem exec (a : Activation) (pc : Int) (m : Machine) : (Moment.mk (.exec a pc) m H).Steps t (exec a pc m) where
  step := stepped_bind _ m
  only q hq := by
    cases hq with
    | step h => exact ⟨stepped_eq_ok ((stepped_bind _ m).symm.trans h), rfl⟩

/-- The host has the outcome of a call only when it has made one. -/
theorem deliver {r : Except Failure Value} {k : Kont} {rest : List Kont} (hk : m.context.konts = k :: rest)
    (ht : m.context.fiber = t) (hH : m.context.konts ∉ H) :
    (Moment.mk (.deliver r) m H).Steps t (resumeKont k r { m with context.konts := rest }) where
  step := (deliver_cons hk).trans (stepped_bind _ _)
  only q hq := by
    cases hq with
    | step h => exact ⟨stepped_eq_ok (((deliver_cons hk).trans (stepped_bind _ _)).symm.trans h), rfl⟩
    | back _ h => exact absurd (h ht) hH

theorem leads {p q : Moment} (hp : p.Steps t (.ok q.control q.machine)) (hc : q.calls = p.calls) : p.Leads t q := by
  obtain ⟨c, m, H⟩ := q
  cases hc
  exact .step hp.step

theorem eq_of_leads {p q x : Moment} (hp : p.Steps t (.ok q.control q.machine)) (hc : q.calls = p.calls)
    (hx : p.Leads t x) : x = q := by
  obtain ⟨ho, hcalls⟩ := hp.only x hx
  obtain ⟨c, m, H⟩ := x
  obtain ⟨c', m', H'⟩ := q
  cases ho
  exact congrArg (Moment.mk c m) (hcalls.trans hc.symm)

end Moment.Steps

namespace Stretch

variable {s : Stretch} {p q : Moment} {trail : List Moment} {o o₁ : Outturn} {d : Defect}

theorem executes_iff_of_fails (hp : p.Steps s.thread (.error d m)) :
    s.Executes p trail o ↔ trail = [] ∧ o = .error d m := by
  refine ⟨fun h => ?_, fun h => ?_⟩
  · cases h with
    | fails hs =>
      cases stepped_eq_error (hp.step.symm.trans hs)
      exact ⟨rfl, rfl⟩
    | leaves hx _ _ | stays hx _ _ | away hx _ _ => cases (hp.only _ hx).1
  · obtain ⟨rfl, rfl⟩ := h
    exact .fails hp.step

theorem executes_iff_of_leaves (hp : p.Steps s.thread (.ok q.control q.machine)) (hc : q.calls = p.calls)
    (hat : s.At q.machine) (hin : ¬s.Inside q.control q.machine) :
    s.Executes p trail o ↔ trail = [] ∧ o = .ok q.control q.machine := by
  refine ⟨fun h => ?_, fun h => ?_⟩
  · cases h with
    | fails hs => cases hp.step.symm.trans hs
    | leaves hx _ _ => exact ⟨rfl, hp.eq_of_leads hc hx ▸ rfl⟩
    | stays hx hin' _ => exact absurd (hp.eq_of_leads hc hx ▸ hin') hin
    | away hx hat' _ => exact absurd hat (hp.eq_of_leads hc hx ▸ hat')
  · obtain ⟨rfl, rfl⟩ := h
    exact .leaves (hp.leads hc) hat hin

/-- The next step is one inside of the stretch. -/
theorem executes_iff_of_stays (hp : p.Steps s.thread (.ok q.control q.machine)) (hc : q.calls = p.calls)
    (hin : s.Inside q.control q.machine) : s.Executes p trail o ↔ s.Executes q trail o := by
  refine ⟨fun h => ?_, .stays (hp.leads hc) hin⟩
  cases h with
  | fails hs => cases hp.step.symm.trans hs
  | leaves hx _ hin' => exact absurd (hp.eq_of_leads hc hx ▸ hin) hin'
  | stays hx _ h => exact hp.eq_of_leads hc hx ▸ h
  | away hx hat _ => exact absurd (hp.eq_of_leads hc hx ▸ hin.1) hat

/-- The step leads away from the code. -/
theorem executes_iff_of_away (hp : p.Steps s.thread (.ok q.control q.machine)) (hc : q.calls = p.calls)
    (hat : ¬s.At q.machine) : s.Executes p trail o ↔ ∃ rest, trail = q :: rest ∧ s.Executes q rest o := by
  refine ⟨fun h => ?_, fun ⟨rest, hrest, h⟩ => hrest ▸ .away (hp.leads hc) hat h⟩
  cases h with
  | fails hs => cases hp.step.symm.trans hs
  | leaves hx hat' _ => exact absurd (hp.eq_of_leads hc hx ▸ hat') hat
  | stays hx hin _ => exact absurd (hp.eq_of_leads hc hx ▸ hin.1) hat
  | away hx _ h =>
    obtain rfl := hp.eq_of_leads hc hx
    exact ⟨_, rfl, h⟩

/-- What a stretch of code comes to when nothing is called there any more. -/
inductive Ends (s : Stretch) : Outturn → Outturn → Prop where
  | fails {d : Defect} {m : Machine} : Ends s (.error d m) (.error d m)
  | leaves {c : Control} {m : Machine} : s.At m → ¬s.Inside c m → Ends s (.ok c m) (.ok c m)
  | stays {pc : Int} {m : Machine} {o : Outturn} : s.At m → pc ∈ s.places → Ends s (exec s.act pc m) o →
      Ends s (.ok (.exec s.act pc) m) o

theorem Ends.executes (h : s.Ends o o₁) (hp : step p.control p.machine = stepped o) : s.Executes p [] o₁ := by
  induction h generalizing p with
  | fails => exact .fails hp
  | @leaves c m hat hin => exact .leaves (q := ⟨c, m, p.calls⟩) (.step hp) hat hin
  | @stays pc m _ hat hpc _ ih =>
    exact .stays (q := ⟨.exec s.act pc, m, p.calls⟩) (.step hp) ⟨hat, pc, hpc, rfl⟩ (ih (stepped_bind _ m))

theorem Ends.executes_iff {o' : Outturn} (h : s.Ends o o') (hp : p.Steps s.thread o) :
    s.Executes p trail o₁ ↔ trail = [] ∧ o₁ = o' := by
  induction h generalizing p with
  | fails => exact executes_iff_of_fails hp
  | @leaves c m hat hin => exact executes_iff_of_leaves (q := ⟨c, m, p.calls⟩) hp rfl hat hin
  | @stays pc m _ hat hpc _ ih =>
    exact (executes_iff_of_stays (q := ⟨.exec s.act pc, m, p.calls⟩) hp rfl ⟨hat, pc, hpc, rfl⟩).trans (ih (.exec _ _ m))

theorem Ends.at (h : s.Ends (.ok c m) o) : s.At m := by
  cases h <;> assumption

theorem Ends.eq_of_outside (h : s.Ends (.ok c m) o) (hin : ¬s.Inside c m) : o = .ok c m := by
  cases h with
  | leaves => rfl
  | stays hat hpc _ => exact absurd ⟨hat, _, hpc, rfl⟩ hin

theorem Ends.eq_of_inside (h : s.Ends (.ok q.control q.machine) o) (hin : s.Inside q.control q.machine)
    (hx : s.Executes q trail o₁) : trail = [] ∧ o₁ = o := by
  obtain ⟨c, m, H⟩ := q
  cases h with
  | leaves _ hin' => exact absurd hin hin'
  | stays _ _ h => exact (h.executes_iff (.exec _ _ m)).mp hx

end Stretch

/-! ## Calls with other continuations below them -/

def Moment.on (p : Moment) (e : Exchange) : Moment := ⟨p.control, e.on p.machine, p.calls.map (e.konts e.thread)⟩

namespace Exchange

variable {e : Exchange} {v : Visit} {p p' : Moment}

/-- Only the thread that runs has what is exchanged. -/
theorem on_running (hl : m.Threaded) (ht : m.context.fiber = e.thread) :
    e.on m = { m with context.konts := e.konts e.thread m.context.konts } := by
  have other {x : Context} (h : x.fiber ≠ e.thread) : x.mapKonts e.konts = x := by rw [Context.mapKonts, konts_of_ne h]
  have waiting : m.waiting.map (Context.mapKonts e.konts) = m.waiting := by
    refine (List.map_congr_left fun x hx => other fun hf => ?_).trans (List.map_id _)
    exact (List.nodup_cons.mp hl.distinct).1 (List.mem_map.mpr ⟨x, hx, hf.trans ht.symm⟩)
  have stored (i : Nat) (x : Context) (hx : (m.fibers.getD i default).context = some x) : x.fiber ≠ e.thread := by
    intro hf
    have live := hl.live i (List.mem_map.mpr ⟨m.context, List.mem_cons_self, ht.trans (hf.symm.trans (hl.own i x hx))⟩)
    cases hx.symm.trans live.2.2
  have fibers : m.fibers.map (Fiber.mapKonts e.konts) = m.fibers := by
    refine Array.ext_getElem? fun i => ?_
    rw [Array.getElem?_map]
    cases hf : m.fibers[i]? with
    | none => rfl
    | some f =>
      have there : m.fibers.getD i default = f := by rw [Array.getD_eq_getD_getElem?, hf, Option.getD_some]
      have same : f.context.map (Context.mapKonts e.konts) = f.context := by
        cases hc : f.context with
        | none => rfl
        | some x => exact congrArg some (other (stored i x (there.symm ▸ hc)))
      exact congrArg (fun x => some { f with context := x }) same
  have running : m.context.mapKonts e.konts = { m.context with konts := e.konts e.thread m.context.konts } :=
    congrArg (fun t => { m.context with konts := e.konts t m.context.konts }) ht
  exact congrArg₂ (fun waiting fibers => { e.on m with waiting, fibers }) waiting fibers |>.trans
    (congrArg (fun context => { m with context }) running)

/-- What is exchanged stands where it is left to be done on the running thread. -/
theorem holds_of_threaded (hl : m.Threaded) (ht : m.context.fiber = e.thread) (hs : m.context.stack.capacity = e.room)
    (hk : ∃ ks, m.context.konts = ks ++ e.old) : e.Holds m where
  running _ := ⟨hs, hk⟩
  waiting x hx hf := by
    refine absurd (List.mem_map.mpr ⟨x, hx, hf.trans ht.symm⟩) (List.nodup_cons.mp hl.distinct).1
  stored i x hx := .inl fun hf => by
    have own := hl.own i x hx
    have live := hl.live i (List.mem_map.mpr ⟨m.context, List.mem_cons_self, ht.trans (hf.symm.trans own)⟩)
    cases hx.symm.trans live.2.2
  started i hi := by
    have live := hl.live i (List.mem_map.mpr ⟨m.context, List.mem_cons_self, ht.trans hi⟩)
    exact ⟨live.1, .inr (.inl live.2.1)⟩

/-- Whatever comes next comes with other continuations too, unless it is what is exchanged. -/
theorem leads_on {q : Moment} (hm : e.Holds p.machine)
    (ho : ∀ r, p.control = .deliver r → p.machine.context.fiber = e.thread → p.machine.context.konts ≠ e.old)
    (h : p.Leads e.thread q) : (p.on e).Leads e.thread (q.on e) ∧ e.Holds q.machine := by
  cases h with
  | step h =>
    obtain ⟨he, hm'⟩ := step_on hm ho
    exact ⟨.step (he.trans (congrArg (mapState e.on) h)), hm' _ _ h⟩
  | tend h => exact ⟨.tend (tended_on h), hm.steady h.steady h.context⟩
  | @enter host _ m _ H entry h =>
    obtain ⟨he, hm'⟩ := start_on entry hm
    have entered := Moment.Leads.enter (t := e.thread) (h := host) (H := H.map (e.konts e.thread)) entry
      (he.trans (congrArg (mapState e.on) h))
    refine ⟨?_, hm' _ _ h⟩
    by_cases ht : m.context.fiber = e.thread
    · have ht' : (e.on m).context.fiber = e.thread := ht
      have konts : (e.on m).context.konts = e.konts e.thread m.context.konts := congrArg (e.konts · m.context.konts) ht
      rw [if_pos ht', konts] at entered
      rwa [if_pos ht]
    · rw [if_neg (show (e.on m).context.fiber ≠ e.thread from ht)] at entered
      rwa [if_neg ht]
  | @back _ m _ h hback =>
    refine ⟨.back h fun ht => List.mem_map.mpr ⟨_, hback ht, ?_⟩, hm⟩
    exact (congrArg (e.konts · m.context.konts) ht).symm
  | answer r => exact ⟨.answer r, hm⟩

/-- A call is being made below which something is exchanged. -/
structure Within (e : Exchange) (v : Visit) (p : Moment) : Prop extends p.Orderly where
  holds : e.Holds p.machine
  during : ∃ W, v.During W (p.control.mark p.machine.context) p.machine

/-- What comes next while a call is being made, until it has returned and a step is made. -/
theorem Within.next {q : Moment} (h : e.Within v p) (hf : v.fiber = e.thread) (hk : v.konts = e.old)
    (hx : p.Leads e.thread q) :
    (e.Within v q ∧ (p.on e).Leads e.thread (q.on e)) ∨
    v.Returned p.control p.machine ∧ step p.control p.machine = .ok (.inl q.control) q.machine ∧ q.calls = p.calls := by
  have orderly := h.toOrderly.next hx
  obtain ⟨W, hW⟩ := h.during
  by_cases hr : v.Returned p.control p.machine
  · cases hx with
    | step hs => exact .inr ⟨hr, hs, rfl⟩
    | @back r m H host hback =>
      refine .inl ⟨⟨orderly, h.holds, W, hW⟩, .back host fun ht => List.mem_map.mpr ⟨_, hback ht, ?_⟩⟩
      exact (congrArg (e.konts · m.context.konts) ht).symm
    | _ =>
      obtain ⟨r, hr⟩ := hr.outcome
      cases hr
  · have away (r : Except Failure Value) (hc : p.control = .deliver r) (ht : p.machine.context.fiber = e.thread) :
        p.machine.context.konts ≠ e.old := fun hk' => hr ⟨⟨r, hc⟩, ht.trans hf.symm, hk'.trans hk.symm⟩
    obtain ⟨hx', holds⟩ := leads_on h.holds away hx
    exact .inl ⟨⟨orderly, holds, _, hW.next h.ordered h.ready hr hx.next⟩, hx'⟩

/-- While something is exchanged below a call, the thread is not back at the code that made it. -/
theorem Within.not_at {s : Stretch} {k : Kont} (h : e.Within v p) (ht : s.thread = e.thread) (hk : e.old = k :: s.konts) :
    ¬s.At p.machine := by
  intro ⟨hf, hs⟩
  obtain ⟨-, ks, hks⟩ := h.holds.running (hf.trans ht)
  rw [hks, hk] at hs
  have := congrArg List.length hs
  simp only [List.length_append, List.length_cons] at this
  omega

theorem Within.not_at_on {s : Stretch} {k : Kont} (h : e.Within v p) (ht : s.thread = e.thread) (hk : e.new = k :: s.konts) :
    ¬s.At (p.on e).machine := by
  intro ⟨hf, hs⟩
  have hf : p.machine.context.fiber = e.thread := hf.trans ht
  obtain ⟨-, ks, hks⟩ := h.holds.running hf
  have konts : (p.on e).machine.context.konts = ks ++ e.new := by
    rw [← konts_append, ← hks, ← hf]
    rfl
  rw [konts, hk] at hs
  have := congrArg List.length hs
  simp only [List.length_append, List.length_cons] at this
  omega

theorem resembles_on (p : Moment) : p.Resembles (p.on e) := ⟨rfl, Machine.resembles_mapKonts _ _⟩

end Exchange

/-- Two stretches come to something that is related, when nothing is called there any more. -/
def Stretch.Concludes (s s' : Stretch) (Q : Outturn → Outturn → Prop) (x y : Outturn) : Prop :=
  ∃ o o', s.Ends x o ∧ s'.Ends y o' ∧ Q o o'

/-- When the call has returned, what was exchanged is gone on with, on the same machine. -/
theorem Exchange.Within.resumed {e : Exchange} {v : Visit} {p : Moment} {k k' : Kont} {ks : List Kont} (h : e.Within v p)
    (hf : v.fiber = e.thread) (hk : v.konts = e.old) (hold : e.old = k :: ks) (hnew : e.new = k' :: ks)
    (hr : v.Returned p.control p.machine) : ∃ r, p.control = .deliver r ∧
      step p.control p.machine = stepped (resumeKont k r { p.machine with context.konts := ks }) ∧
      step (p.on e).control (p.on e).machine = stepped (resumeKont k' r { p.machine with context.konts := ks }) := by
  obtain ⟨c, m, H⟩ := p
  obtain ⟨⟨r, hc⟩, fiber, konts⟩ := hr
  cases hc
  have konts : m.context.konts = k :: ks := konts.trans (hk.trans hold)
  have exchanged : e.on m = { m with context.konts := k' :: ks } := by
    rw [Exchange.on_running h.threaded (fiber.trans hf), konts, ← hold, ← hnew]
    exact congrArg (fun ks => { m with context.konts := ks }) (Exchange.konts_append [])
  refine ⟨r, rfl, (deliver_cons konts).trans (stepped_bind _ _), ?_⟩
  have step : step (.deliver r) (e.on m) = _ := congrArg (Exec.step (.deliver r)) exchanged
  exact step.trans ((deliver_cons rfl).trans (stepped_bind _ _))

/-- Executions may be gone through with other code and other continuations, if it comes to something alike when a call
has returned. -/
theorem Stretch.Executes.on {s s' : Stretch} {e : Exchange} {v : Visit} {k k' : Kont} {ks : List Kont}
    {Q : Outturn → Outturn → Prop} (hs : s.thread = e.thread ∧ s.konts = ks) (hs' : s'.thread = e.thread ∧ s'.konts = ks)
    (hold : e.old = k :: ks) (hnew : e.new = k' :: ks) (hf : v.fiber = e.thread) (hk : v.konts = e.old)
    (hQ : ∀ d m, Q (.error d m) (.error d (e.on m)))
    (hends : ∀ p r, e.Within v p → v.Returned p.control p.machine → s.Concludes s' Q
      (resumeKont k r { p.machine with context.konts := ks }) (resumeKont k' r { p.machine with context.konts := ks }))
    {p : Moment} {trail : List Moment} {o : Outturn} (hp : e.Within v p) (h : s.Executes p trail o) :
    ∃ trail' o', s'.Executes (p.on e) trail' o' ∧ List.Forall₂ Moment.Resembles trail trail' ∧ Q o o' := by
  have old : e.old = k :: s.konts := hs.2 ▸ hold
  have new : e.new = k' :: s'.konts := hs'.2 ▸ hnew
  have returned {p q : Moment} (hp : e.Within v p) (hr : v.Returned p.control p.machine)
      (h : step p.control p.machine = .ok (.inl q.control) q.machine) :
      ∃ o o', s.Ends (.ok q.control q.machine) o ∧ s'.Executes (p.on e) [] o' ∧ Q o o' := by
    obtain ⟨r, -, hstep, hstep'⟩ := hp.resumed hf hk hold hnew hr
    obtain ⟨o, o', ho, ho', hq⟩ := hends p r hp hr
    exact ⟨o, o', stepped_eq_ok (hstep.symm.trans h) ▸ ho, ho'.executes hstep', hq⟩
  induction h with
  | @fails p d m h =>
    by_cases hr : v.Returned p.control p.machine
    · obtain ⟨r, -, hstep, hstep'⟩ := hp.resumed hf hk hold hnew hr
      obtain ⟨o, o', ho, ho', hq⟩ := hends p r hp hr
      rw [stepped_eq_error (hstep.symm.trans h)] at ho
      cases ho
      exact ⟨[], o', ho'.executes hstep', .nil, hq⟩
    · have away (r : Except Failure Value) (hc : p.control = .deliver r) (ht : p.machine.context.fiber = e.thread) :
          p.machine.context.konts ≠ e.old := fun hk' => hr ⟨⟨r, hc⟩, ht.trans hf.symm, hk'.trans hk.symm⟩
      have he := (Exchange.step_on hp.holds away).1
      rw [h] at he
      exact ⟨[], _, .fails he, .nil, hQ d m⟩
  | @leaves p q hx hat hin =>
    rcases hp.next hf hk (hs.1 ▸ hx) with ⟨hq, -⟩ | ⟨hr, h, -⟩
    · exact absurd hat (hq.not_at hs.1 old)
    · obtain ⟨o, o', ho, ho', hq⟩ := returned hp hr h
      exact ⟨[], o', ho', .nil, ho.eq_of_outside hin ▸ hq⟩
  | @stays p q trail o hx hin hrest ih =>
    rcases hp.next hf hk (hs.1 ▸ hx) with ⟨hq, -⟩ | ⟨hr, h, -⟩
    · exact absurd hin.1 (hq.not_at hs.1 old)
    · obtain ⟨o, o', ho, ho', hq⟩ := returned hp hr h
      obtain ⟨rfl, rfl⟩ := ho.eq_of_inside hin hrest
      exact ⟨[], o', ho', .nil, hq⟩
  | @away p q trail o hx hat hrest ih =>
    rcases hp.next hf hk (hs.1 ▸ hx) with ⟨hq, hx'⟩ | ⟨hr, h, -⟩
    · obtain ⟨trail', o', ho, htrail, hq'⟩ := ih hq
      exact ⟨q.on e :: trail', o', .away (hs'.1.symm ▸ hx') (hq.not_at_on hs'.1 new) ho,
        .cons (Exchange.resembles_on q) htrail, hq'⟩
    · obtain ⟨o, o', ho, -, -⟩ := returned hp hr h
      exact absurd ho.at hat

end RubyMachine
