import LongestMatch.Pattern.Token
import LongestMatch.Fragment.Copy

/-!
# The pattern grammar

    0  pattern -> exp
    1  exp     -> unit                   8  unit   -> char
    2  exp     -> exp exp                9  unit   -> ( exp )
    3  exp     -> exp | exp             10  ranges -> ranges range
    4  exp     -> unit +                11  ranges -> range
    5  exp     -> unit *                12  range  -> char
    6  unit    -> [ ranges ]            13  range  -> char - char
    7  unit    -> [ ^ ranges ]

The grammar is ambiguous, and the table decides. After a sequence it goes on before a character or a
bar, so that a bar has to its left only the unit before it, and reduces before an opening bracket or
parenthesis. After an alternation it goes on before a character only.
-/

namespace LongestMatch.Pattern

open Parse (Action)

def rows : Array (List (Symbol × Action)) :=
  open Pattern.Symbol Parse.Action in #[
    [(exp, shift 1), (unit, shift 2), (lbracket, shift 3), (char, shift 4), (lparen, shift 5)],
    [(endMark, reduce 0), (unit, shift 2), (exp, shift 6), (bar, shift 7), (lbracket, shift 3),
     (char, shift 4), (lparen, shift 5)],
    [(lparen, reduce 1), (lbracket, reduce 1), (bar, reduce 1), (endMark, reduce 1),
     (char, reduce 1), (plus, shift 8), (times, shift 9)],
    [(ranges, shift 10), (caret, shift 11), (range, shift 12), (char, shift 13)],
    [(lparen, reduce 8), (lbracket, reduce 8), (times, reduce 8), (plus, reduce 8),
     (bar, reduce 8), (endMark, reduce 8), (char, reduce 8)],
    [(unit, shift 14), (exp, shift 15), (lbracket, shift 16), (char, shift 17),
     (lparen, shift 18)],
    [(unit, shift 2), (exp, shift 6), (lparen, reduce 2), (lbracket, reduce 2), (bar, shift 7),
     (endMark, reduce 2), (char, shift 4)],
    [(unit, shift 2), (exp, shift 19), (lbracket, shift 3), (char, shift 4), (lparen, shift 5)],
    [(lparen, reduce 4), (lbracket, reduce 4), (bar, reduce 4), (endMark, reduce 4),
     (char, reduce 4)],
    [(lparen, reduce 5), (lbracket, reduce 5), (bar, reduce 5), (endMark, reduce 5),
     (char, reduce 5)],
    [(rbracket, shift 20), (range, shift 21), (char, shift 13)],
    [(ranges, shift 22), (range, shift 12), (char, shift 13)],
    [(rbracket, reduce 11), (char, reduce 11)],
    [(rbracket, reduce 12), (char, reduce 12), (dash, shift 23)],
    [(lparen, reduce 1), (rparen, reduce 1), (lbracket, reduce 1), (bar, reduce 1),
     (char, reduce 1), (plus, shift 24), (times, shift 25)],
    [(unit, shift 14), (exp, shift 26), (bar, shift 27), (lbracket, shift 16), (char, shift 17),
     (lparen, shift 18), (rparen, shift 28)],
    [(ranges, shift 29), (caret, shift 30), (range, shift 12), (char, shift 13)],
    [(lparen, reduce 8), (rparen, reduce 8), (lbracket, reduce 8), (times, reduce 8),
     (plus, reduce 8), (bar, reduce 8), (char, reduce 8)],
    [(unit, shift 14), (exp, shift 31), (lbracket, shift 16), (char, shift 17),
     (lparen, shift 18)],
    [(unit, shift 2), (exp, shift 6), (bar, reduce 3), (lparen, reduce 3), (lbracket, reduce 3),
     (endMark, reduce 3), (char, shift 4)],
    [(lparen, reduce 6), (lbracket, reduce 6), (times, reduce 6), (plus, reduce 6),
     (bar, reduce 6), (endMark, reduce 6), (char, reduce 6)],
    [(rbracket, reduce 10), (char, reduce 10)],
    [(rbracket, shift 32), (range, shift 21), (char, shift 13)],
    [(char, shift 33)],
    [(lparen, reduce 4), (rparen, reduce 4), (lbracket, reduce 4), (bar, reduce 4),
     (char, reduce 4)],
    [(lparen, reduce 5), (rparen, reduce 5), (lbracket, reduce 5), (bar, reduce 5),
     (char, reduce 5)],
    [(unit, shift 14), (exp, shift 26), (lparen, reduce 2), (rparen, reduce 2),
     (lbracket, reduce 2), (bar, shift 27), (char, shift 17)],
    [(unit, shift 14), (exp, shift 34), (lbracket, shift 16), (char, shift 17),
     (lparen, shift 18)],
    [(lparen, reduce 9), (lbracket, reduce 9), (times, reduce 9), (plus, reduce 9),
     (bar, reduce 9), (endMark, reduce 9), (char, reduce 9)],
    [(rbracket, shift 35), (range, shift 21), (char, shift 13)],
    [(ranges, shift 36), (range, shift 12), (char, shift 13)],
    [(unit, shift 14), (exp, shift 26), (bar, shift 27), (lbracket, shift 16), (char, shift 17),
     (lparen, shift 18), (rparen, shift 37)],
    [(lparen, reduce 7), (lbracket, reduce 7), (times, reduce 7), (plus, reduce 7),
     (bar, reduce 7), (endMark, reduce 7), (char, reduce 7)],
    [(rbracket, reduce 13), (char, reduce 13)],
    [(unit, shift 14), (exp, shift 26), (bar, reduce 3), (lparen, reduce 3), (rparen, reduce 3),
     (lbracket, reduce 3), (char, shift 17)],
    [(lparen, reduce 6), (rparen, reduce 6), (lbracket, reduce 6), (times, reduce 6),
     (plus, reduce 6), (bar, reduce 6), (char, reduce 6)],
    [(rbracket, shift 38), (range, shift 21), (char, shift 13)],
    [(lparen, reduce 9), (rparen, reduce 9), (lbracket, reduce 9), (times, reduce 9),
     (plus, reduce 9), (bar, reduce 9), (char, reduce 9)],
    [(lparen, reduce 7), (rparen, reduce 7), (lbracket, reduce 7), (times, reduce 7),
     (plus, reduce 7), (bar, reduce 7), (char, reduce 7)]]

def productions : List (Symbol × Nat) :=
  open Pattern.Symbol in [(pattern, 1), (exp, 1), (exp, 2), (exp, 3), (exp, 2), (exp, 2), (unit, 3),
    (unit, 4), (unit, 1), (unit, 3), (ranges, 2), (ranges, 1), (range, 1), (range, 3)]

def table : Parse.Table Symbol where
  rows := rows
  heads := (productions.map Prod.fst).toArray
  lengths := (productions.map Prod.snd).toArray

def Letter.fragment : Letter → Build Fragment
  | code n => Fragment.literal n n
  | wildcard => Fragment.any

def combine : Nat → List Value → Build Value
  | 0, [value] => return value
  | 1, [value] => return value
  | 2, [.fragment f, .fragment next] => return .fragment (← f.concatenate next)
  | 3, [.fragment f, _, .fragment other] => return .fragment (← f.union other)
  | 4, [.fragment f, _] => return .fragment (← f.plus)
  | 5, [.fragment f, _] => return .fragment (← f.star)
  | 6, [_, .ranges bounds, _] => return .fragment (← Fragment.ofClass bounds)
  | 7, [_, _, .ranges bounds, _] => return .fragment (← Fragment.ofNegatedClass bounds)
  | 8, [.letter letter] => return .fragment (← letter.fragment)
  | 9, [_, value, _] => return value
  | 10, [.ranges bounds, .range first last] => return .ranges (bounds ++ [(first, last)])
  | 11, [.range first last] => return .ranges [(first, last)]
  | 12, [.letter letter] => return .range letter.literal letter.literal
  | 13, [.letter first, _, .letter last] =>
    if last.literal < first.literal then
      Recorded.fail (.malformedRange first.literal last.literal)
    else return .range first.literal last.literal
  | production, _ => Recorded.fault (.misfitValues production)

end LongestMatch.Pattern
