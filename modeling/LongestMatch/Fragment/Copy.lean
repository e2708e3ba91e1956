import LongestMatch.Fragment.Combine
import LongestMatch.OrderedSet

/-!
# Copying a fragment

The nodes that can be reached from the entry are copied breadth first, each into a new node. A copy
has the arcs, the targets and the handlers of its node, with every target replaced by its copy.
-/

namespace LongestMatch.Fragment

open Build Recorded

/-- The nodes seen so far in the order in which they were seen, and the copy of each. -/
structure Copying where
  seen : Array NodeId := #[]
  images : OrderedSet (NodeId × NodeId) (compareOn Prod.fst) := ∅

namespace Copying

def image? (c : Copying) (n : NodeId) : Option NodeId := (c.images.find? (n, 0)).map Prod.snd

def image (c : Copying) (n : NodeId) : Build (NodeId × Copying) :=
  match c.image? n with
  | some copy => return (copy, c)
  | none => do
    let copy ← alloc
    return (copy, ⟨c.seen.push n, (c.images.insert (n, copy)).1⟩)

def imageList (c : Copying) : List NodeId → Build (List NodeId × Copying)
  | [] => return ([], c)
  | n :: ns => do
    let (copy, c) ← c.image n
    let (copies, c) ← c.imageList ns
    return (copy :: copies, c)

def copyArcs (c : Copying) (copy : NodeId) : List Arc → Build Copying
  | [] => return c
  | a :: arcs => do
    let (targets, c) ← c.imageList a.targets
    addEdge copy (.arc { a with targets })
    c.copyArcs copy arcs

def copyNode (c : Copying) (copy : NodeId) (n : Node) : Build Copying := do
  n.handlers.forM (addHandler copy)
  let c ← c.copyArcs copy n.arcs.arcs
  if n.epsilonTargets.isEmpty then
    return c
  let (targets, c) ← c.imageList n.epsilonTargets
  addEdge copy (.epsilon targets)
  return c

def finish (c : Copying) (bound i : Nat) : Build Copying :=
  match c.seen[i]? with
  | none => return c
  | some n =>
    match bound with
    | 0 => fault .unbounded
    | bound + 1 =>
      match c.image? n with
      | none => fault (.uncopiedNode n)
      | some copy => do
        let c ← c.copyNode copy (← node n)
        c.finish bound (i + 1)

end Copying

/-- A bound on the nodes to copy. When all targets are in the graph, its size would do; an edge that
leads to a node yet to be made may lead to a copy, which is then copied in turn, as long as there are
node numbers of 32 bits. -/
def copyBound (g : Graph) : Nat := g.size + UInt32.size

/-- A copy that shares no node with the fragment. An exit that cannot be reached from the entry is
copied as a node without edges. -/
def copy (f : Fragment) : Build Fragment := do
  let bound := copyBound (← current)
  let (entry, c) ← Copying.image {} f.entry
  let c ← c.finish bound 0
  let exit ← match c.image? f.exit with
    | some exit => pure exit
    | none => alloc
  record (.copied f c.seen.size)
  return ⟨entry, exit⟩

def plus (f : Fragment) : Build Fragment := do
  let once ← f.copy
  let loop ← f.star
  once.concatenate loop

end LongestMatch.Fragment
