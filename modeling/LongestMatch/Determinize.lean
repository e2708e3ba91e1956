import LongestMatch.Closure
import LongestMatch.OrderedSet
import LongestMatch.Recorded

/-!
# Subset construction

A deterministic graph is built whose states stand for closed sets of nodes, by the names of these sets.
The arcs of all nodes of a set are first added to the node of its state, so that they are laid over each
other; then each piece comes to lead to the state of the closure of its targets. States are numbered in
the order in which their sets are found, and are expanded in this order too.
-/

namespace LongestMatch

namespace Graph

/-- A node that is not in the graph counts as a node without arcs and handlers. -/
def nodeD (g : Graph) (n : NodeId) : Node := (g.node? n).getD {}

def handlersOf (g : Graph) (set : List NodeId) : List HandlerId :=
  set.foldl (fun handlers n => Ascending.insertAll handlers (g.nodeD n).handlers) []

def pour (g : Graph) (set : List NodeId) (node : Node) : Node :=
  set.foldl (fun node n => (g.nodeD n).arcs.arcs.foldl (fun node a => node.addEdge (.arc a)) node) node

/-- The states found so far: the set that each stands for, the state for each name of a set, and the
deterministic graph. -/
structure Subsets where
  sets : Array (List NodeId) := #[]
  memo : OrderedSet (String × NodeId) (compareOn Prod.fst) := ∅
  states : Graph := ∅

namespace Subsets

def resolve (g : Graph) (limit : Option Nat) (set : List NodeId) (s : Subsets) :
    Except Failure (NodeId × Subsets) :=
  match s.memo.find? (signature set, 0) with
  | some (_, state) => .ok (state, s)
  | none =>
    let state := s.states.size
    match limit.filter (· ≤ state) with
    | some limit => .error (.error (.tooManyStates limit))
    | none => .ok (state, {
        sets := s.sets.push set
        memo := (s.memo.insert (signature set, state)).1
        states := s.states.push { handlers := g.handlersOf set } })

def link (g : Graph) (limit : Option Nat) (state : NodeId) (s : Subsets) :
    List Edge → Except Failure Subsets
  | [] => .ok s
  | e :: edges => do
    let set ← g.closure e.targets
    let (target, s) ← s.resolve g limit set
    let states := s.states.modify state (·.addEdge (e.retarget [target]))
    link g limit state { s with states } edges

/-- Gives a state its arcs. The edges poured into its node lead to nodes of `g`; they are all taken out
before the edges to other states are added. -/
def expand (g : Graph) (limit : Option Nat) (state : NodeId) (set : List NodeId) (s : Subsets) :
    Except Failure Subsets :=
  let poured := g.pour set (s.states.nodeD state)
  let states := s.states.modify state fun _ => poured.withoutEdges
  { s with states }.link g limit state poured.edges

def finish (g : Graph) (limit : Option Nat) (bound : Nat) (state : NodeId) (s : Subsets) :
    Except Failure Subsets :=
  match s.sets[state]? with
  | none => .ok s
  | some set =>
    match bound with
    | 0 => .error (.fault .unbounded)
    | bound + 1 => do (← s.expand g limit state set).finish g limit bound (state + 1)

end Subsets

def determinize (g : Graph) (start : NodeId) (limit : Option Nat) :
    Except Failure (Graph × NodeId) := do
  let set ← g.closure [start]
  let (first, s) ← Subsets.resolve g limit set {}
  let s ← s.finish g limit (Nat.pow 2 g.size) first
  return (s.states, first)

def determinizeRecorded {σ : Type} (g : Graph) (start : NodeId) (limit : Option Nat) :
    Recorded σ (Graph × NodeId) := do
  let (states, first) ← ofExcept (g.determinize start limit)
  Recorded.record (.determinized g.size states.size)
  return (states, first)

end Graph

end LongestMatch
