import LongestMatch.ArcSet
import LongestMatch.Ascending

namespace LongestMatch

/-- A handler, by its place in the table of handlers; a lower place has priority. -/
abbrev HandlerId := Nat

/-- A node of an automaton. An edge that reads nothing may be there without any target. -/
structure Node where
  arcs : ArcSet := ∅
  epsilon : Option (List NodeId) := none
  handlers : List HandlerId := []
  deriving DecidableEq

namespace Node

def epsilonTargets (n : Node) : List NodeId := n.epsilon.getD []

def addEdge (n : Node) : Edge → Node
  | .arc a => { n with arcs := n.arcs.overlay a }
  | .epsilon targets =>
    { n with epsilon := some (match n.epsilon with
      | none => targets
      | some there => NodeId.unite there targets) }
  | .never => n

def edges (n : Node) : List Edge :=
  n.arcs.arcs.map .arc ++ (n.epsilon.map .epsilon).toList

def edgeFor? (n : Node) (code : Nat) : Option Edge :=
  if code = epsilonCode then n.epsilon.map .epsilon else (n.arcs.find? code).map .arc

def withoutEdges (n : Node) : Node := { handlers := n.handlers }

def addHandler (n : Node) (h : HandlerId) : Node :=
  { n with handlers := Ascending.insert h n.handlers }

def isAccepting (n : Node) : Bool := !n.handlers.isEmpty

def text (n : Node) (id : NodeId) : String :=
  Text.recordText "AutomatonNode" [("id", id.text), ("edges", Text.setText (n.edges.map Edge.text)),
    ("handlers", Text.listText (n.handlers.map toString))]

end Node

structure Graph where
  nodes : Array Node := #[]
  deriving DecidableEq

namespace Graph

instance : EmptyCollection Graph := ⟨{}⟩

def size (g : Graph) : Nat := g.nodes.size

abbrev HasNode (g : Graph) (id : Nat) : Prop := id < g.size

def node? (g : Graph) (id : NodeId) : Option Node := g.nodes[id]?

def push (g : Graph) (n : Node) : Graph := ⟨g.nodes.push n⟩

def modify (g : Graph) (id : NodeId) (change : Node → Node) : Graph := ⟨g.nodes.modify id change⟩

def text (g : Graph) : String := Text.recordText "NodeArena" [("nodes_count", toString g.size)]

end Graph

end LongestMatch
