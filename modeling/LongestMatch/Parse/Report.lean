import LongestMatch.Text.Quoted

namespace LongestMatch.Parse

inductive Move where
  | shift (state : Nat) (symbol : String) (target : Nat)
  | reduce (state production : Nat) (head : String)
  | discard (state : Nat) (symbol : String)
  deriving DecidableEq, Repr

inductive Diagnostic where
  | unexpected (symbol text : String)
  | overdrawn (production length height : Nat)
  | unfinished
  deriving DecidableEq, Repr

def Move.message : Move → String
  | shift state symbol target =>
    s!"state {state}: shift `" ++ symbol ++ s!"` -> {target}"
  | reduce state production head =>
    s!"state {state}: reduce by {production} -> `" ++ head ++ "`"
  | discard state symbol => s!"state {state}: discard `" ++ symbol ++ "`"

def Diagnostic.message : Diagnostic → String
  | unexpected symbol text =>
    "unexpected `" ++ symbol ++ "`" ++ if text = "" then "" else " (" ++ Text.quoted text ++ ")"
  | overdrawn production length height =>
    s!"production {production} pops {length} symbols from a stack of {height}"
  | unfinished => "input ended before it was accepted"

end LongestMatch.Parse
