import LongestMatch.HandlerTable

namespace LongestMatch

structure Automaton (R : Type) where
  graph : Graph
  start : NodeId
  handlers : HandlerTable R := {}

namespace Automaton

variable {R : Type}

def node (a : Automaton R) (id : NodeId) : Except Failure Node :=
  match a.graph.node? id with
  | some n => .ok n
  | none => .error (.fault (.unknownNode id))

def step (a : Automaton R) (id : NodeId) (c : Char) : Except Failure (Option NodeId) :=
  if c.toNat > maxCode then .ok none
  else do
    match (← a.node id).arcs.find? c.toNat with
    | none => return none
    | some ⟨_, [target]⟩ => return some target
    | some arc => .error (.fault (.ambiguousArc arc))

def matchesFrom (a : Automaton R) (id : NodeId) : List Char → Except Failure Bool
  | [] => return (← a.node id).isAccepting
  | c :: cs => do
    match ← a.step id c with
    | none => return false
    | some next => a.matchesFrom next cs

def matches? (a : Automaton R) (text : String) : Except Failure Bool :=
  a.matchesFrom a.start text.toList

structure Match where
  length : Nat
  node : NodeId
  deriving DecidableEq, Repr

/-- The longest match of a text after `length` characters of which the automaton is in node `id`;
`best` is the longest match so far. -/
def longestFrom (a : Automaton R) (id : NodeId) (length : Nat) (best : Option Match) :
    List Char → Except Failure (Option Match)
  | [] => return best
  | c :: cs => do
    match ← a.step id c with
    | none => return best
    | some next =>
      let best := if (← a.node next).isAccepting then some ⟨length + 1, next⟩ else best
      a.longestFrom next (length + 1) best cs

/-- The longest match of a text, not counting the empty one. -/
def longest (a : Automaton R) (text : List Char) : Except Failure (Option Match) :=
  a.longestFrom a.start 0 none text

def registered (a : Automaton R) (id : HandlerId) : Except Failure (String × (String → R)) :=
  match a.handlers.entry? id with
  | some entry => .ok entry
  | none => .error (.fault (.unregisteredHandler id))

def preferred (a : Automaton R) (id : NodeId) : Except Failure (String × (String → R)) := do
  match (← a.node id).handlers with
  | [] => .error (.fault (.noHandler id))
  | h :: _ => a.registered h

end Automaton

end LongestMatch
