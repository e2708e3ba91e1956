import LongestMatch.Error

/-!
# Parse tables

A table says for each state and symbol what to do: shift the symbol and go to another state, or
reduce by a production. It comes with the head and the length of every production; production 0 is
the one that accepts.
-/

namespace LongestMatch.Parse

/-- Symbols of a grammar, among them the mark of the end of input and the one that stands for input
skipped after an error. -/
class Alphabet (S : Type) where
  decidableEq : DecidableEq S
  endMark : S
  error : S
  name : S → String

instance {S : Type} [Alphabet S] : DecidableEq S := Alphabet.decidableEq

instance : Alphabet String where
  decidableEq := inferInstance
  endMark := "$"
  error := "error"
  name := id

inductive Action where
  | shift (state : Nat)
  | reduce (production : Nat)
  deriving DecidableEq, Repr

/-- The number that decimal digits, with at most one plus sign before them, stand for, if it takes
no more than 64 bits. -/
def number? (text : List Char) : Option Nat :=
  let digits := match text with
    | '+' :: digits => digits
    | digits => digits
  if digits.isEmpty ∨ !digits.all Char.isDigit then none
  else
    let value := digits.foldl (fun value c => value * 10 + (c.toNat - '0'.toNat)) 0
    if value < UInt64.size then some value else none

namespace Action

def decode (text : String) : Except TableDefect (Option Action) :=
  if text = "err" then .ok none
  else match text.toList with
    | [] => .error (.badAction text)
    | kind :: digits =>
      match number? digits with
      | none => .error (.badAction text)
      | some n =>
        if kind = 's' then .ok (some (.shift n))
        else if kind = 'r' then .ok (some (.reduce n))
        else .error (.badAction text)

def InRange (states productions : Nat) : Action → Prop
  | shift state => state < states
  | reduce production => production < productions

instance (states productions : Nat) (a : Action) : Decidable (a.InRange states productions) := by
  cases a <;> exact inferInstanceAs (Decidable (_ < _))

end Action

structure Table (S : Type) where
  rows : Array (List (S × Action))
  heads : Array S
  lengths : Array Nat

namespace Table

variable {S : Type}

def action? [Alphabet S] (t : Table S) (state : Nat) (symbol : S) : Option Action :=
  (t.rows[state]?).bind fun row => (row.find? fun entry => entry.1 = symbol).map Prod.snd

def stateCount (t : Table S) : Nat := t.rows.size

def productionCount (t : Table S) : Nat := t.heads.size

def text (t : Table S) : String :=
  Text.recordText "ParseTable" [("states", toString t.stateCount),
    ("productions", toString t.productionCount)]

/-- Reads the actions of one state into those read so far. A later action on a symbol comes before
an earlier one. -/
def readRow [Alphabet S] (states productions state : Nat) (row : List (S × Action)) :
    List (S × String) → Except TableDefect (List (S × Action))
  | [] => return row
  | (symbol, text) :: entries => do
    match ← Action.decode text with
    | none => readRow states productions state row entries
    | some action =>
      if action.InRange states productions then
        readRow states productions state ((symbol, action) :: row) entries
      else .error (.outOfRange state text (Alphabet.name symbol))

def readRows [Alphabet S] (states productions state : Nat) :
    List (List (S × String)) → Except TableDefect (List (List (S × Action)))
  | [] => return []
  | entries :: more => do
    let row ← readRow states productions state [] entries
    return row :: (← readRows states productions (state + 1) more)

def ofRows [Alphabet S] (rows : List (List (S × String))) (heads : List S) (lengths : List Nat) :
    Except TableDefect (Table S) := do
  if heads.length ≠ lengths.length then
    throw (.unequalCounts heads.length lengths.length)
  if heads.isEmpty then
    throw .noProductions
  let rows ← readRows rows.length heads.length 0 rows
  return ⟨rows.toArray, heads.toArray, lengths.toArray⟩

end Table

end LongestMatch.Parse
