import LongestMatch.Graph
import LongestMatch.Recorded

namespace LongestMatch

abbrev Build (α : Type) := Recorded Graph α

namespace Build

open Recorded

/-- The most nodes that room can be asked for: of 80 bytes each they fill 63 bits of addresses. -/
def maxRoom : Nat := (UInt64.size / 2 - 1) / 80

/-- Asks for room for some nodes, which only says how large the graph may grow without moving. -/
def reserve (nodes : Nat) : Build Unit :=
  if maxRoom < nodes then fault (.noRoom nodes) else pure ()

/-- Adds a node under the next number, which is never cut down to 32 bits. -/
def alloc : Build NodeId := changeGet fun g => (g.size, g.push {})

def node (id : NodeId) : Build Node := do
  match (← current).node? id with
  | some n => return n
  | none => fault (.unknownNode id)

def modifyNode (id : NodeId) (f : Node → Node) : Build Unit := do
  let _ ← node id
  change (·.modify id f)

def addEdge (id : NodeId) (e : Edge) : Build Unit := modifyNode id (·.addEdge e)

def addHandler (id : NodeId) (h : HandlerId) : Build Unit := modifyNode id (·.addHandler h)

def range (first last : Nat) : Build CodeRange :=
  ofExcept ((CodeRange.ofBounds first last).mapError .error)

end Build

end LongestMatch
