import LongestMatch.Edge
import LongestMatch.Parse.Report

namespace LongestMatch

open Parse (Diagnostic)

inductive TableDefect where
  | unequalCounts (heads lengths : Nat)
  | noProductions
  | badAction (action : String)
  | outOfRange (state : Nat) (action symbol : String)
  deriving DecidableEq, Repr

inductive SavedDefect where
  | noStart
  | unknownTag (tag : String)
  | missingNode (node target : Nat)
  | overlappingEdges (node : Nat)
  deriving DecidableEq, Repr

inductive Error where
  | malformedRange (first last : Nat)
  | unknownEscape (escape : Char) (offset : Nat)
  | unfinishedEscape
  | codeOutOfRange (code offset : Nat)
  | emptyClass
  | rejected (diagnostics : List Diagnostic)
  | badTable (defect : TableDefect)
  | tooManyStates (limit : Nat)
  | repeatedTag (tag : String)
  | badSaved (defect : SavedDefect)
  | notJson
  deriving DecidableEq, Repr

/-- Which promise a caller broke, in contrast to what is wrong with the input. -/
inductive Fault where
  | unknownNode (node : NodeId)
  | noRoom (nodes : Nat)
  | noComplement (edge : Edge)
  | uncopiedNode (node : NodeId)
  | ambiguousArc (arc : Arc)
  | noHandler (node : NodeId)
  | unregisteredHandler (handler : Nat)
  | unnumberedNode (node : NodeId)
  | misfitValues (production : Nat)
  | brokenTable
  | unbounded
  deriving DecidableEq, Repr

inductive Failure where
  | error (error : Error)
  | fault (fault : Fault)
  deriving DecidableEq, Repr

structure ScanError where
  char : Char
  position : Nat
  deriving DecidableEq, Repr

def CodeRange.ofBounds (first last : Nat) : Except Error CodeRange :=
  match ofBounds? first last with
  | some r => .ok r
  | none => .error (.malformedRange first last)

def TableDefect.message : TableDefect → String
  | unequalCounts heads lengths => s!"{heads} production heads but {lengths} lengths"
  | noProductions => "no productions"
  | badAction action => "bad action `" ++ action ++ "`"
  | outOfRange state action symbol =>
    s!"state {state}: `" ++ action ++ "` on `" ++ symbol ++ "` is out of range"

def SavedDefect.message : SavedDefect → String
  | noStart => "automaton has no start node"
  | unknownTag tag => "unknown handler tag `" ++ tag ++ "`"
  | missingNode node target => s!"node {node} has an edge to missing node {target}"
  | overlappingEdges node => s!"node {node} has overlapping edges"

def codePointText (code : Nat) : String :=
  let digits := (Text.hexDigits code).map Char.toUpper
  "U+" ++ String.ofList (List.replicate (4 - digits.length) '0' ++ digits)

def Error.message : Error → String
  | malformedRange first last => s!"malformed interval [{first}, {last}]"
  | unknownEscape escape offset =>
    "invalid escape `\\" ++ escape.toString ++ s!"` at offset {offset}"
  | unfinishedEscape => "pattern ends inside an escape sequence"
  | codeOutOfRange code offset =>
    "code point " ++ codePointText code ++ s!" at offset {offset} is outside the 16-bit code space"
  | emptyClass => "character class is empty"
  | rejected diagnostics =>
    "syntax error: " ++ "; ".intercalate (diagnostics.map Diagnostic.message)
  | badTable defect => "malformed parse table: " ++ defect.message
  | tooManyStates limit => s!"automaton exceeds {limit} states"
  | repeatedTag tag => "handler tag `" ++ tag ++ "` is registered twice"
  | badSaved defect => "invalid serialized automaton: " ++ defect.message
  | notJson => "not the JSON text of an automaton"

def ScanError.message (e : ScanError) : String :=
  "unrecognized character " ++ Text.quotedChar e.char ++ s!" at offset {e.position}"

end LongestMatch
