import LongestMatch.Graph
import LongestMatch.Error

namespace LongestMatch

namespace Graph

/-- A search for nodes: for each place whether its node has been found, and the nodes whose edges are
still to be followed. -/
structure Search where
  found : Array Bool
  pending : List NodeId := []

namespace Search

def visit (s : Search) (n : NodeId) : Search :=
  if s.found.getD n false then s else ⟨s.found.setIfInBounds n true, n :: s.pending⟩

def nodesBelow (s : Search) (n : Nat) (more : List NodeId) : List NodeId :=
  match n with
  | 0 => more
  | n + 1 => s.nodesBelow n (if s.found.getD n false then n :: more else more)

def nodes (s : Search) : List NodeId := s.nodesBelow s.found.size []

def finish (g : Graph) (bound : Nat) (s : Search) : Except Failure (List NodeId) :=
  match bound, s.pending with
  | _, [] => .ok s.nodes
  | 0, _ :: _ => .error (.fault .unbounded)
  | bound + 1, n :: pending =>
    match g.node? n with
    | none => .error (.fault (.unknownNode n))
    | some node => (node.epsilonTargets.foldl visit { s with pending }).finish g bound

end Search

/-- The nodes that can be reached from the given ones without reading, ascending, so that equal sets
of nodes are equal lists. -/
def closure (g : Graph) (nodes : List NodeId) : Except Failure (List NodeId) :=
  (nodes.foldl Search.visit { found := .replicate g.size false }).finish g (g.size + 1)

end Graph

/-- The name of a set of nodes: their numbers, separated by commas. -/
def signature (nodes : List NodeId) : String := ",".intercalate (nodes.map toString)

end LongestMatch
