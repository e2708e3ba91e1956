import LongestMatch.Automaton.Basic
import LongestMatch.Recorded

/-!
# Scanning a text

A session holds an automaton and a cursor into the text that is being scanned. Each call scans one
token; at the end of the text it runs the callback of the caller, which works on the caller's own
state. A character that no token begins with leaves the cursor in place, and can be skipped.
-/

namespace LongestMatch

def utf8Length (text : List Char) : Nat := text.foldr (·.utf8Size + ·) 0

/-- An automaton at work on a text; `κ` is the state of the caller. -/
structure Session (R κ : Type) where
  automaton : Automaton R
  source : String := ""
  rest : List Char := []
  /-- Where the rest begins, in bytes. -/
  position : Nat := 0
  onEnd : Option (κ → κ) := none
  caller : κ

inductive Scan (R : Type) where
  | token (result : R)
  | unrecognized (e : ScanError)
  | finished

namespace Session

open Recorded

variable {R κ : Type}

def withSource (s : Session R κ) (source : String) : Session R κ :=
  { s with source, rest := source.toList, position := 0 }

def isFinished (s : Session R κ) : Bool := s.rest.isEmpty

def advance (s : Session R κ) (length : Nat) : Session R κ :=
  { s with
    rest := s.rest.drop length
    position := s.position + utf8Length (s.rest.take length) }

def setSource (source : String) : Recorded (Session R κ) Unit := change (·.withSource source)

def skip : Recorded (Session R κ) (Option Char) := do
  let s ← current
  match s.rest with
  | [] => return none
  | c :: _ =>
    record (.skipped c s.position)
    change (·.advance 1)
    return some c

def next : Recorded (Session R κ) (Scan R) := do
  let s ← current
  match s.rest with
  | [] =>
    change fun s => { s with caller := (s.onEnd.getD id) s.caller }
    return .finished
  | c :: _ =>
    match ← ofExcept (s.automaton.longest s.rest) with
    | none => return .unrecognized ⟨c, s.position⟩
    | some found =>
      let (tag, handler) ← ofExcept (s.automaton.preferred found.node)
      let text := String.ofList (s.rest.take found.length)
      record (.matched text s.position tag)
      change (·.advance found.length)
      return .token (handler text)

def tokens (bound : Nat) : Recorded (Session R κ) (Except ScanError (List R)) := do
  match ← next with
  | .finished => return .ok []
  | .unrecognized e => return .error e
  | .token result =>
    match bound with
    | 0 => fault .unbounded
    | bound + 1 => return (← tokens bound).map (result :: ·)

def tokenize (source : String) : Recorded (Session R κ) (Except ScanError (List R)) := do
  setSource source
  tokens (← current).rest.length

/-- Scans tokens up to the end of the text, at most `bound` of them, and skips characters that no
token begins with. -/
def items (bound : Nat) : Recorded (Session R κ) (List (Except ScanError R)) := do
  match ← next with
  | .finished => return []
  | .unrecognized e =>
    match bound with
    | 0 => fault .unbounded
    | bound + 1 =>
      let _ ← skip
      return .error e :: (← items bound)
  | .token result =>
    match bound with
    | 0 => fault .unbounded
    | bound + 1 => return .ok result :: (← items bound)

def scanAll (source : String) : Recorded (Session R κ) (List (Except ScanError R)) := do
  setSource source
  items (← current).rest.length

def text (s : Session R κ) : String :=
  Text.recordText "Dfa" [("states", toString s.automaton.graph.size),
    ("start", s.automaton.start.text), ("handlers", s.automaton.handlers.text),
    ("position", toString s.position), ("source_len", toString s.source.utf8ByteSize)]

end Session

end LongestMatch
