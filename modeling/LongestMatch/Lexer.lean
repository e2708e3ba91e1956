import LongestMatch.Automaton.Session
import LongestMatch.Determinize
import LongestMatch.Pattern.Compile

/-!
# Lexers

A lexer is given by rules: a pattern, and a handler for the texts that match it. At each place the
longest match of any rule counts, and of several rules with this match the first one.
-/

namespace LongestMatch

structure Rule (R : Type) where
  pattern : String
  tag : String
  handler : String → R

structure Lexer (R : Type) where
  rules : List (Rule R) := []
  /-- Whether a dot in a pattern stands for any character, or for a dot. -/
  dotMatchesAny : Bool := true
  maxStates : Option Nat := none

namespace Lexer

open Recorded

variable {R σ : Type}

def addRules (dotMatchesAny : Bool) (start : NodeId) (table : HandlerTable R) :
    List (Rule R) → Build (HandlerTable R)
  | [] => return table
  | rule :: rules => do
    let (id, table) ← ofExcept ((table.insert rule.tag rule.handler).mapError Failure.error)
    let f ← Pattern.compile rule.pattern dotMatchesAny
    f.accept id
    Build.addEdge start (.epsilon [f.entry])
    addRules dotMatchesAny start table rules

def buildGraph (l : Lexer R) : Build (NodeId × HandlerTable R) := do
  let start ← Build.alloc
  return (start, ← addRules l.dotMatchesAny start {} l.rules)

def build (l : Lexer R) : Recorded σ (Automaton R) := do
  via (fun s => (∅, fun _ => s)) do
    let (start, handlers) ← l.buildGraph
    let g ← current
    let (states, first) ← g.determinizeRecorded start l.maxStates
    record (.assembled l.rules.length g.size states.size)
    return { graph := states, start := first, handlers }

end Lexer

def Rule.text {R : Type} (r : Rule R) : String :=
  Text.recordText "LexerRule" [("pattern", Text.quoted r.pattern), ("tag", Text.quoted r.tag)]

def Lexer.text {R : Type} (l : Lexer R) : String :=
  Text.recordText "LexerBuilder" [("rules", Text.listText (l.rules.map Rule.text)),
    ("dot_matches_any", toString l.dotMatchesAny),
    ("max_states", match l.maxStates with
      | none => "None"
      | some limit => "Some(" ++ toString limit ++ ")")]

end LongestMatch
