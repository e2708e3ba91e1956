import LongestMatch.Edge
import LongestMatch.Parse.Report

namespace LongestMatch

open Parse (Diagnostic Move)

structure Fragment where
  entry : NodeId
  exit : NodeId
  deriving DecidableEq, Repr

def Fragment.text (f : Fragment) : String :=
  Text.recordText "Nfa" [("start", f.entry.text), ("end", f.exit.text)]

inductive Event where
  | parsing (move : Move)
  | diagnosed (diagnostic : Diagnostic)
  /-- The pattern is rejected at the last token read, which starts at `offset`. -/
  | patternRejected (pattern : String) (offset : Nat) (diagnostic : Diagnostic)
  | copied (fragment : Fragment) (nodes : Nat)
  | compiled (pattern : String) (nodes : Nat)
  | determinized (nodes states : Nat)
  | assembled (rules nodes states : Nat)
  | matched (text : String) (position : Nat) (tag : String)
  | skipped (char : Char) (position : Nat)
  | loaded (states : Nat)
  deriving DecidableEq, Repr

namespace Event

inductive Level where
  | trace
  | debug
  | warn
  deriving DecidableEq, Repr

def Level.name : Level → String
  | trace => "TRACE"
  | debug => "DEBUG"
  | warn => "WARN"

def level : Event → Level
  | parsing _ | copied .. | matched .. | skipped .. => .trace
  | diagnosed _ | compiled .. | determinized .. | assembled .. | loaded _ => .debug
  | patternRejected .. => .warn

def message : Event → String
  | parsing move => move.message
  | diagnosed diagnostic => diagnostic.message
  | patternRejected pattern offset diagnostic =>
    "pattern " ++ Text.quoted pattern ++ s!", offset {offset}: " ++ diagnostic.message
  | copied fragment nodes => "cloned fragment " ++ fragment.text ++ s!" into {nodes} nodes"
  | compiled pattern nodes =>
    "compiled pattern " ++ Text.quoted pattern ++ s!" into {nodes} NFA nodes"
  | determinized nodes states =>
    s!"subset construction: {nodes} NFA nodes -> {states} DFA states"
  | assembled rules nodes states =>
    s!"built lexer from {rules} rules: {nodes} NFA nodes, {states} DFA states"
  | matched text position tag =>
    "matched " ++ Text.quoted text ++ s!" at {position} with handler " ++ Text.quoted tag
  | skipped char position => "skipped " ++ Text.quotedChar char ++ s!" at {position}"
  | loaded states => s!"deserialized automaton with {states} states"

def line (e : Event) : String := e.level.name ++ " " ++ e.message

end Event

end LongestMatch
