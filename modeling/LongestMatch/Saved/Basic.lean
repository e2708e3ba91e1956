import LongestMatch.Automaton.Basic
import LongestMatch.Recorded

/-!
# Saved automata

The part of an automaton that can be reached from its start, as plain data: nodes are numbered in
breadth-first order, the start first, and handlers are named by their tags. An automaton is restored
from it with any table that has these tags.
-/

namespace LongestMatch

structure SavedEdge where
  first : Nat
  last : Nat
  target : Nat
  deriving DecidableEq, Repr

structure SavedNode where
  edges : List SavedEdge
  handlers : List String
  deriving DecidableEq, Repr

structure Saved where
  nodes : List SavedNode
  deriving DecidableEq, Repr

namespace Automaton

variable {R : Type}

/-- Adds the targets of each node found to the nodes found, from place `i` on and through at most
`bound` nodes. -/
def discover (a : Automaton R) (bound i : Nat) (found : List NodeId) :
    Except Failure (List NodeId) :=
  match found[i]? with
  | none => .ok found
  | some id =>
    match bound with
    | 0 => .error (.fault .unbounded)
    | bound + 1 => do
      let n ← a.node id
      a.discover bound (i + 1) (NodeId.unite found (n.arcs.arcs.flatMap Arc.targets))

def reachable (a : Automaton R) : Except Failure (List NodeId) :=
  a.discover (a.graph.size + 1) 0 [a.start]

def saveArc (nodes : List NodeId) (arc : Arc) : Except Failure SavedEdge :=
  match arc.targets with
  | [] => .error (.fault (.ambiguousArc arc))
  | target :: _ =>
    if target ∈ nodes then .ok ⟨arc.range.first, arc.range.last, nodes.idxOf target⟩
    else .error (.fault (.unnumberedNode target))

def saveNode (a : Automaton R) (nodes : List NodeId) (id : NodeId) : Except Failure SavedNode := do
  let n ← a.node id
  let edges ← n.arcs.arcs.mapM (saveArc nodes)
  let handlers ← n.handlers.mapM fun h => return (← a.registered h).1
  return ⟨edges, handlers⟩

def save (a : Automaton R) : Except Failure Saved := do
  let nodes ← a.reachable
  return ⟨← nodes.mapM (a.saveNode nodes)⟩

end Automaton

namespace SavedEdge

def arc (size node : Nat) (e : SavedEdge) : Except Error Arc :=
  if size ≤ e.target then .error (.badSaved (.missingNode node e.target))
  else return ⟨← CodeRange.ofBounds e.first e.last, [e.target]⟩

def bounds (e : SavedEdge) : Nat × Nat := (e.first, e.last)

end SavedEdge

def sortBounds (bounds : List (Nat × Nat)) : List (Nat × Nat) :=
  bounds.mergeSort fun a b => a.1 < b.1 || (a.1 == b.1 && a.2 ≤ b.2)

def overlapsNext : List (Nat × Nat) → Bool
  | a :: b :: bounds => b.1 ≤ a.2 || overlapsNext (b :: bounds)
  | _ => false

namespace SavedNode

variable {R : Type}

def resolve (table : HandlerTable R) (tag : String) : Except Error HandlerId :=
  match table.find? tag with
  | some h => .ok h
  | none => .error (.badSaved (.unknownTag tag))

/-- The node at place `place` of an automaton of `size` nodes. Its edges may be listed in any order,
but must not overlap. -/
def node (table : HandlerTable R) (size place : Nat) (n : SavedNode) : Except Error Node := do
  let handlers ← n.handlers.mapM (resolve table)
  let arcs ← n.edges.mapM (·.arc size place)
  if overlapsNext (sortBounds (n.edges.map SavedEdge.bounds)) then
    throw (.badSaved (.overlappingEdges place))
  return { arcs := arcs.foldl ArcSet.overlay ∅, handlers }

end SavedNode

namespace Saved

variable {R : Type}

def nodesFrom (table : HandlerTable R) (size place : Nat) :
    List SavedNode → Except Error (List Node)
  | [] => return []
  | n :: ns => do
    let restored ← n.node table size place
    return restored :: (← nodesFrom table size (place + 1) ns)

def load (s : Saved) (table : HandlerTable R) : Except Error (Automaton R) := do
  if s.nodes.isEmpty then
    throw (.badSaved .noStart)
  let nodes ← nodesFrom table s.nodes.length 0 s.nodes
  return { graph := ⟨nodes.toArray⟩, start := 0, handlers := table }

def loadRecorded {σ R : Type} (s : Saved) (table : HandlerTable R) : Recorded σ (Automaton R) := do
  let a ← ofExcept ((s.load table).mapError .error)
  Recorded.record (.loaded s.nodes.length)
  return a

end Saved

/-- A text form of saved automata. Nothing is asked of it here: that the reader takes back what the
writer gives is a matter of each codec (`Codec.Inverts`). -/
structure Codec where
  write : Saved → Except Error String
  read : String → Except Error Saved

def Codec.Inverts (codec : Codec) (s : Saved) : Prop :=
  ∃ text, codec.write s = .ok text ∧ codec.read text = .ok s

namespace Automaton

variable {R : Type}

def toText (codec : Codec) (a : Automaton R) : Except Failure String := do
  (codec.write (← a.save)).mapError .error

def ofText (codec : Codec) (table : HandlerTable R) (text : String) : Except Error (Automaton R) := do
  (← codec.read text).load table

end Automaton

end LongestMatch
