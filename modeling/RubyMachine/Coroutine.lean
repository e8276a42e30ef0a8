import RubyMachine.Defect

/-! Coroutines: a body that is resumed with inputs and answers each with an output.

A body is a transition system. It runs as a sequence whose elements are pulled out one at a time: what it yields, and
last its result. Its inputs come to it through a field that both sides see. A body never runs before the first
resumption; after it has finished, or was stopped, resuming it gives the default output and says that it is done. -/

namespace RubyMachine

namespace Coroutine

/-- What a body does when it is given an input. -/
inductive Outcome (σ O : Type) where
  | yield (out : O) (state : σ)
  | finish (out : O)
  | crash (message : String)

structure Body (σ I O : Type) where
  start : I → Outcome σ O
  resume : σ → I → Outcome σ O

/-! ## Sequences that are pulled -/

/-- What a sequence does when it runs: it hands out an element and waits in a state, it is over, or it crashes. -/
inductive Emission (τ α : Type) where
  | emit (element : α) (state : τ)
  | over
  | crash (message : String)

/-- A sequence that sees a memory when it is entered and whenever it goes on. -/
structure Source (μ τ α : Type) where
  enter : μ → Emission τ α
  goOn : τ → μ → Emission τ α

/-- Where a sequence stands whose elements are pulled. -/
inductive Pull (τ : Type) where
  | fresh
  | waiting (state : τ)
  | ended
  | dropped

namespace Pull

variable {μ τ α : Type}

def settle : Emission τ α → Except Defect (Option α) × Pull τ
  | .emit a t => (.ok (some a), .waiting t)
  | .over => (.ok none, .ended)
  | .crash m => (.error (.raised m), .ended)

def next (seq : Source μ τ α) (memory : μ) : Pull τ → Except Defect (Option α) × Pull τ
  | fresh => settle (seq.enter memory)
  | waiting t => settle (seq.goOn t memory)
  | ended => (.ok none, ended)
  | dropped => (.ok none, dropped)

/-- Nothing more is pulled. A sequence that waits is unwound. -/
def stop : Pull τ → Pull τ
  | fresh => dropped
  | waiting _ => ended
  | ended => ended
  | dropped => dropped

end Pull

structure Step (O : Type) where
  value : O
  final : Bool

/-- Where a body waits: in a yield, or behind its result. -/
inductive Wait (σ : Type) where
  | inside (state : σ)
  | behind

variable {σ I O : Type}

def Outcome.emission : Outcome σ O → Emission (Wait σ) (Step O)
  | .yield out s => .emit ⟨out, false⟩ (.inside s)
  | .finish out => .emit ⟨out, true⟩ .behind
  | .crash m => .crash m

/-- A body as a sequence. It takes its input from the memory when it starts and when a yield returns. -/
def Body.source (body : Body σ I O) : Source I (Wait σ) (Step O) where
  enter input := (body.start input).emission
  goOn
    | .inside s, input => (body.resume s input).emission
    | .behind, _ => .over

end Coroutine

open Coroutine in
/-- A coroutine with the field through which inputs come in. They are numbers unless it is said otherwise. -/
structure Coroutine (σ : Type) (I : Type := Int) [Inhabited I] where
  pull : Pull (Wait σ) := .fresh
  input : I := default
  started : Bool := false
  done : Bool := false

namespace Coroutine

variable {σ I O : Type} [Inhabited I]

/-- Runs the body up to its next output. A body that crashes is over, but counts as done only when it
is resumed again. -/
def resume [Inhabited O] (body : Body σ I O) (c : Coroutine σ I) (input : I) :
    Except Defect (O × Bool) × Coroutine σ I :=
  if c.done then (.ok (default, true), c)
  else
    let c := { c with input, started := true }
    match c.pull.next body.source c.input with
    | (.error d, pull) => (.error d, { c with pull })
    | (.ok step?, pull) =>
      -- the end of the sequence counts as a result
      let step := step?.getD ⟨default, true⟩
      if step.final then (.ok (step.value, true), { c with pull := pull.stop, done := true })
      else (.ok (step.value, false), { c with pull })

def stop (c : Coroutine σ I) : Coroutine σ I :=
  if c.done then c else { c with pull := c.pull.stop, done := true }

/-- Whether the body is over, be it that it finished, crashed or was unwound. -/
def isOver (c : Coroutine σ I) : Bool :=
  match c.pull with
  | .ended => true
  | _ => false

end Coroutine

end RubyMachine
