import LongestMatch.CodeRange
import LongestMatch.Text.Quoted

namespace LongestMatch

/-- A node, by its place in the graph. The numbers are unbounded; of 32 bits each, they would run out
in a graph of `2 ^ 32` nodes. -/
abbrev NodeId := Nat

namespace NodeId

def text (n : NodeId) : String := "#" ++ toString n

def listText (nodes : List NodeId) : String := Text.listText (nodes.map text)

def unite (targets more : List NodeId) : List NodeId :=
  more.foldl (fun targets n => if n ∈ targets then targets else targets ++ [n]) targets

end NodeId

structure Arc where
  range : CodeRange
  targets : List NodeId
  deriving DecidableEq, Repr

namespace Arc

def before? (a : Arc) (code : Nat) : Option Arc := (a.range.before? code).map ({ a with range := · })

def after? (a : Arc) (code : Nat) : Option Arc := (a.range.after? code).map ({ a with range := · })

/-- Two arcs up to the end of what their ranges share: what either has to itself before it, then
what they share. -/
def joint (a b : Arc) (shared : CodeRange) : List Arc :=
  (a.before? shared.first).toList ++ (b.before? shared.first).toList ++
    [⟨shared, NodeId.unite a.targets b.targets⟩]

def separate (a b : Arc) : List Arc :=
  match a.range.meet? b.range with
  | none => [a, b]
  | some shared =>
    a.joint b shared ++ (a.after? shared.last).toList ++ (b.after? shared.last).toList

def text (a : Arc) : String :=
  "(" ++ toString a.range.first ++ ", " ++ toString a.range.last ++ ") -> " ++
    NodeId.listText a.targets

end Arc

inductive Edge where
  | arc (arc : Arc)
  | epsilon (targets : List NodeId)
  | never
  deriving DecidableEq, Repr

namespace Edge

def first : Edge → Nat
  | arc a => a.range.first
  | epsilon _ => epsilonCode
  | never => neverCode

def last : Edge → Nat
  | arc a => a.range.last
  | epsilon _ => epsilonCode
  | never => neverCode

def targets : Edge → List NodeId
  | arc a => a.targets
  | epsilon targets => targets
  | never => []

def retarget : Edge → List NodeId → Edge
  | arc a, targets => arc { a with targets }
  | epsilon _, targets => epsilon targets
  | never, _ => never

def isEpsilon : Edge → Bool
  | epsilon _ => true
  | _ => false

def isNever : Edge → Bool
  | never => true
  | _ => false

def contains (e : Edge) (code : Nat) : Bool := e.first ≤ code && code ≤ e.last

/-- Edges in the order of their labels; overlapping labels compare equal. -/
def compare (a b : Edge) : Ordering :=
  if a.last < b.first then .lt else if b.last < a.first then .gt else .eq

def separate : Edge → Edge → List Edge
  | arc a, arc b => (a.separate b).map arc
  | epsilon targets, epsilon more => [epsilon (NodeId.unite targets more)]
  | never, never => [never]
  | a, b => [a, b]

/-- The edges to the same targets that read what an edge does not; the complement of all code points
is an edge that is never passed. Only an edge that reads has a complement. -/
def complement? : Edge → Option (List Edge)
  | arc a =>
    match a.range.complement with
    | [] => some [never]
    | ranges => some (ranges.map fun range => arc { a with range })
  | _ => none

def text : Edge → String
  | arc a => a.text
  | epsilon targets => "ε -> " ++ NodeId.listText targets
  | never => "never"

end Edge

end LongestMatch
