import LongestMatch.Json.Reader
import LongestMatch.Json.Writer
import LongestMatch.Saved.Basic

/-!
# Saved automata as JSON

A saved automaton is written as nested records. It is read back from any JSON text with the same
records: fields in another order, fields that mean nothing here, or a record written as the array of
its values.
-/

namespace LongestMatch

open Json

def SavedEdge.write (e : SavedEdge) : List Char :=
  writeObject [("start", writeNatural e.first), ("end", writeNatural e.last),
    ("target", writeNatural e.target)]

def SavedNode.write (n : SavedNode) : List Char :=
  writeObject [("edges", writeArray (n.edges.map SavedEdge.write)),
    ("handlers", writeArray (n.handlers.map writeString))]

def Saved.write (s : Saved) : String :=
  .ofList (writeObject [("nodes", writeArray (s.nodes.map SavedNode.write))])

/-- Bounds take 32 bits, targets 64. -/
def SavedEdge.ofJson? (j : Json) : Option SavedEdge := do
  match ← j.record? ["start", "end", "target"] with
  | [first, last, target] =>
    return ⟨← first.below? UInt32.size, ← last.below? UInt32.size, ← target.below? UInt64.size⟩
  | _ => none

def SavedNode.ofJson? (j : Json) : Option SavedNode := do
  match ← j.record? ["edges", "handlers"] with
  | [edges, handlers] => return ⟨← edges.array? SavedEdge.ofJson?, ← handlers.array? Json.string?⟩
  | _ => none

def Saved.ofJson? (j : Json) : Option Saved := do
  match ← j.record? ["nodes"] with
  | [nodes] => return ⟨← nodes.array? SavedNode.ofJson?⟩
  | _ => none

def Saved.read (text : String) : Except Error Saved :=
  match (Json.parse? text.toList).bind Saved.ofJson? with
  | some s => .ok s
  | none => .error .notJson

def Codec.json : Codec where
  write s := .ok s.write
  read := Saved.read

end LongestMatch
