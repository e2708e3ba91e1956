import LongestMatch.Error
import LongestMatch.Event

namespace LongestMatch

structure Logged (σ : Type) where
  state : σ
  log : Array Event := #[]

/-- A computation on a state of type `σ` that records events and can fail. What it changed and
recorded before it failed stays. -/
abbrev Recorded (σ α : Type) := EStateM Failure (Logged σ) α

namespace Recorded

variable {σ α : Type}

def record (e : Event) : Recorded σ Unit := modify fun s => { s with log := s.log.push e }

def fail (e : Error) : Recorded σ α := throw (.error e)

def fault (f : Fault) : Recorded σ α := throw (.fault f)

def current : Recorded σ σ := return (← get).state

def change (f : σ → σ) : Recorded σ Unit := modify fun s => { s with state := f s.state }

def changeGet (f : σ → α × σ) : Recorded σ α :=
  modifyGet fun s =>
    let (a, state) := f s.state
    (a, { s with state })

/-- Runs a computation on another state. `focus` makes it from this one, and says what becomes of
this one afterwards, also after a failure. -/
def via {τ : Type} (focus : σ → τ × (τ → σ)) (work : Recorded τ α) : Recorded σ α := fun s =>
  let (part, back) := focus s.state
  match work { state := part, log := s.log } with
  | .ok a t => .ok a { state := back t.state, log := t.log }
  | .error e t => .error e { state := back t.state, log := t.log }

end Recorded

end LongestMatch
