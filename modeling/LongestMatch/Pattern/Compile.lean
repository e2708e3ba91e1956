import LongestMatch.Pattern.Grammar

namespace LongestMatch.Pattern

open Parse (Diagnostic Move Verdict)
open Recorded

/-- A pattern being compiled: the text, what is left of it, where that begins and where the token
read last begins, both in bytes, and the graph built so far. -/
structure Reading where
  source : String
  dotMatchesAny : Bool
  rest : List Char
  offset : Nat := 0
  tokenOffset : Nat := 0
  graph : Graph

namespace Reading

def next : Recorded Reading Token := do
  let r ← current
  change ({ · with tokenOffset := r.offset })
  match readToken r.dotMatchesAny r.offset r.rest with
  | .error e => fail e
  | .ok (token, rest) =>
    change ({ · with rest, offset := r.offset + token.text.utf8ByteSize })
    return token

def focus (r : Reading) : Graph × (Graph → Reading) :=
  let others := { r with graph := ∅ }
  (r.graph, fun graph => { others with graph })

def reduce (production : Nat) (values : List Value) : Recorded Reading Value :=
  via Reading.focus (combine production values)

def client : Parse.Client Symbol Value Failure (Logged Reading) where
  blank := .none
  next := next
  reduce := reduce
  report diagnostic s := { s with
    log := (s.log.push (.diagnosed diagnostic)).push
      (.patternRejected s.state.source s.state.tokenOffset diagnostic) }
  observe move s := { s with log := s.log.push (.parsing move) }

/-- How many moves it takes at most to parse a pattern of `length` characters. -/
def moves (length : Nat) : Nat := 16 * (length + 2)

def parse : Recorded Reading Value := fun s =>
  match Parse.parse table client (moves s.state.rest.length) s with
  | some (.accepted value, s) => .ok value s
  | some (.rejected diagnostics, s) => .error (.error (.rejected diagnostics)) s
  | some (.aborted failure, s) => .error failure s
  | some (.broken, s) => .error (.fault .brokenTable) s
  | none => .error (.fault .unbounded) s

end Reading

def compile (source : String) (dotMatchesAny : Bool) : Build Fragment := do
  let before := (← current).size
  let value ← via (fun graph =>
    ({ source, dotMatchesAny, rest := source.toList, graph }, Reading.graph)) Reading.parse
  match value with
  | .fragment f =>
    record (.compiled source ((← current).size - before))
    return f
  | _ => fault (.misfitValues 0)

end LongestMatch.Pattern
