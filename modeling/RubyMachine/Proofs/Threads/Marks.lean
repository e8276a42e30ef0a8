import RubyMachine.Proofs.Threads.Steady

/-! What calls promise. A call leaves the stack as long as it was, with the frame and the values held that
there were. What is left to be done on a thread tells what comes of it: each continuation is given something
with one mark and gives something with another. -/

namespace RubyMachine

/-- How a thread is left: with a length of the stack, where one is promised, a frame, and the values held. -/
structure Mark where
  len : Option Int
  frame : Option Nat
  temps : List Value

namespace Context

/-- A thread as it is, whatever the length of its stack. -/
def mark (x : Context) : Mark := ⟨none, x.frame, x.temps⟩

def exactMark (x : Context) : Mark := ⟨some x.stack.len, x.frame, x.temps⟩

end Context

/-- The same, with the stack cut to a length. -/
def Mark.cut (p : Mark) (len : Int) : Mark := { p with len := some len }

/-- What an activation leaves behind: the stack and the frame are given back. -/
def Activation.left (a : Activation) (p : Mark) : Mark := ⟨some a.height, a.caller, p.temps⟩

namespace Kont

/-- What a continuation leaves behind when it is given something that is marked. -/
def after : Kont → Mark → Mark
  | .activation a _ _ _, p => a.left p
  | .native caller height guarded, p => ⟨some height, caller, if guarded then p.temps.tail else p.temps⟩
  | .drop height, p => p.cut height
  | .map .., p | .construct _, p => ⟨none, p.frame, p.temps.tail⟩
  | .pull d, p | .feed d, p =>
    match d.mode with
    | .map _ => ⟨none, p.frame, p.temps.tail.tail⟩
    | _ => ⟨none, p.frame, p.temps.tail⟩
  | .boundary, p | .negate, p | .fiberBody, p | .fiberIteration, p => p
  | .each .., p | .times .., p | .loop _, p | .puts .., p | .append .., p | .equal .., p =>
    { p with len := none }

/-- Code is gone on with in its own frame. -/
def Accepts : Kont → Mark → Prop
  | .activation a _ _ _, p => p.frame = some a.frame
  | _, _ => True

end Kont

namespace Mark

/-- What `q` promises is there. -/
structure Meets (p q : Mark) : Prop where
  len : q.len = none ∨ q.len = p.len
  frame : p.frame = q.frame
  temps : p.temps = q.temps

variable {p q r : Mark}

theorem Meets.refl (p : Mark) : p.Meets p := ⟨.inr rfl, rfl, rfl⟩

theorem Meets.trans (h : p.Meets q) (h' : q.Meets r) : p.Meets r where
  len := by
    rcases h'.len with hr | hr
    · exact .inl hr
    · exact h.len.imp hr.trans hr.trans
  frame := h.frame.trans h'.frame
  temps := h.temps.trans h'.temps

/-- What is left to be done by the continuations, the first one first, leaves what `q` promises when it is given
something that is marked `p`. -/
def Leads : Mark → List Kont → Mark → Prop
  | p, [], q => p.Meets q
  | p, k :: ks, q => k.Accepts p ∧ (k.after p).Leads ks q

end Mark

namespace Kont

open Mark

variable {p q : Mark}

theorem Accepts.mono {k : Kont} (h : p.Meets q) (hk : k.Accepts q) : k.Accepts p := by
  cases k with
  | activation a _ _ _ => exact h.frame.trans hk
  | _ => trivial

theorem after_mono (k : Kont) (h : p.Meets q) : (k.after p).Meets (k.after q) := by
  obtain ⟨hl, hf, ht⟩ := h
  cases k with
  | activation => exact ⟨.inr rfl, rfl, ht⟩
  | native caller height guarded =>
    refine ⟨.inr rfl, rfl, ?_⟩
    simp only [after, ht]
  | drop => exact ⟨.inr rfl, hf, ht⟩
  | map | construct => exact ⟨.inl rfl, hf, congrArg List.tail ht⟩
  | pull d | feed d =>
    unfold after
    dsimp only
    split
    · exact ⟨.inl rfl, hf, congrArg (fun l => l.tail.tail) ht⟩
    · exact ⟨.inl rfl, hf, congrArg List.tail ht⟩
  | boundary | negate | fiberBody | fiberIteration => exact ⟨hl, hf, ht⟩
  | each | times | loop | puts | append | equal => exact ⟨.inl rfl, hf, ht⟩

end Kont

namespace Mark

variable {p p' q q' : Mark} {ks ks' : List Kont}

theorem Leads.of_meets (h : p.Meets p') (hl : p'.Leads ks q) : p.Leads ks q := by
  induction ks generalizing p p' with
  | nil => exact h.trans hl
  | cons k ks ih => exact ⟨hl.1.mono h, ih (k.after_mono h) hl.2⟩

theorem Leads.append (h : p.Leads ks q) (h' : q.Leads ks' q') : p.Leads (ks ++ ks') q' := by
  induction ks generalizing p with
  | nil => exact h'.of_meets h
  | cons k ks ih => exact ⟨h.1, ih h.2⟩

theorem leads_refl (p : Mark) : p.Leads [] p := Meets.refl p

end Mark

namespace Context

variable {x : Context} {p : Mark}

theorem exactMark_meets (x : Context) : x.exactMark.Meets x.mark := ⟨.inl rfl, rfl, rfl⟩

end Context

/-! ## What is to be done next -/

namespace Control

/-- The mark of what comes back to a thread that goes on with this. -/
def mark (x : Context) : Control → Mark
  | .exec a _ => a.left x.mark
  | .call _ _ base _ _ _ | .yield _ base _ => x.mark.cut (base - 1)
  | .deliver _ | .host _ => x.exactMark

/-- Code is run in its own frame. -/
def Fits (x : Context) : Control → Prop
  | .exec a _ => x.frame = some a.frame
  | _ => True

end Control

end RubyMachine
