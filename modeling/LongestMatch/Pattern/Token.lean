import LongestMatch.Parse.Run
import LongestMatch.Event

/-!
# Tokens of a pattern

Every character of a pattern is a token of its own, except that a backslash forms one token with
what it escapes. A token is a character to match, or one of the signs that give a pattern its shape.
Offsets into the pattern are counted in bytes.
-/

namespace LongestMatch.Pattern

inductive Symbol where
  | endMark
  | error
  | char
  | lparen
  | rparen
  | lbracket
  | rbracket
  | dash
  | plus
  | times
  | caret
  | bar
  | pattern
  | exp
  | unit
  | ranges
  | range
  deriving DecidableEq, Repr

namespace Symbol

def name : Symbol → String
  | endMark => "$"
  | error => "error"
  | char => "ch"
  | lparen => "("
  | rparen => ")"
  | lbracket => "["
  | rbracket => "]"
  | dash => "-"
  | plus => "+"
  | times => "*"
  | caret => "^"
  | bar => "|"
  | pattern => "exp'"
  | exp => "exp"
  | unit => "exp_unit"
  | ranges => "union_units"
  | range => "union_unit"

instance : Parse.Alphabet Symbol := ⟨inferInstance, endMark, error, name⟩

def sign? : Char → Option Symbol
  | '(' => some lparen
  | ')' => some rparen
  | '[' => some lbracket
  | ']' => some rbracket
  | '-' => some dash
  | '+' => some plus
  | '*' => some times
  | '^' => some caret
  | '|' => some bar
  | _ => none

end Symbol

inductive Letter where
  | code (n : Nat)
  | wildcard
  deriving DecidableEq, Repr

/-- The code point that a character stands for inside a class, where the dot is nothing special. -/
def Letter.literal : Letter → Nat
  | code n => n
  | wildcard => '.'.toNat

inductive Value where
  | none
  | letter (letter : Letter)
  | fragment (fragment : Fragment)
  | range (first last : Nat)
  | ranges (bounds : List (Nat × Nat))
  deriving DecidableEq, Repr

abbrev Token := Parse.Token Symbol Value

def escaped? (c : Char) : Option Char :=
  if c = 'n' then some '\n'
  else if c = 't' then some '\t'
  else if c = 'r' then some '\r'
  else if (Symbol.sign? c).isSome ∨ c ∈ ['.', '/', '\\'] then some c
  else none

/-- Reads `count` more digits in base 16 of a code point; the escape began at `offset`. -/
def readHex (offset code : Nat) : (count : Nat) → List Char → Except Error (Nat × List Char)
  | 0, rest => .ok (code, rest)
  | _ + 1, [] => .error .unfinishedEscape
  | count + 1, c :: rest =>
    match Text.hexValue? c with
    | some digit => readHex offset (code * 16 + digit) count rest
    | none => .error (.unknownEscape 'u' offset)

def readEscape (offset : Nat) : List Char → Except Error (Nat × List Char)
  | [] => .error .unfinishedEscape
  | c :: rest =>
    if c = 'u' then readHex offset 0 4 rest
    else match escaped? c with
      | some literal => .ok (literal.toNat, rest)
      | none => .error (.unknownEscape c offset)

def readLetter (dotMatchesAny : Bool) (offset : Nat) (c : Char) (rest : List Char) :
    Except Error (Letter × List Char) :=
  if c = '.' ∧ dotMatchesAny then .ok (.wildcard, rest)
  else if c = '\\' then (readEscape offset rest).map fun (code, rest) => (.code code, rest)
  else if maxCode < c.toNat then .error (.codeOutOfRange c.toNat offset)
  else .ok (.code c.toNat, rest)

/-- Reads the token at `offset`, where `text` is what is left of the pattern, and returns it with
the rest. At the end of the pattern it is the end mark. -/
def readToken (dotMatchesAny : Bool) (offset : Nat) (text : List Char) :
    Except Error (Token × List Char) :=
  match text with
  | [] => .ok (⟨.endMark, .none, ""⟩, [])
  | c :: rest =>
    match Symbol.sign? c with
    | some sign => .ok (⟨sign, .none, c.toString⟩, rest)
    | none => do
      let (letter, after) ← readLetter dotMatchesAny offset c rest
      let lexeme := text.take (text.length - after.length)
      return (⟨.char, .letter letter, .ofList lexeme⟩, after)

end LongestMatch.Pattern
