import LongestMatch.Pattern.Grammar
import LongestMatch.Proofs.Fragment.Classes

/-!
# What patterns mean

A pattern is a body: items one after the other, with or without a bar between them. An item is a
character, a class or a body in parentheses, and may be repeated. A body has two readings. Read from
the right, an item is followed by all that comes after it, or is an alternative to all of it. The
table reads pieces of a body in this way: it cuts the body before each class or parenthesis that
does not stand behind a bar, and puts the pieces together in a sequence.
-/

namespace LongestMatch.Pattern

open scoped Computability
open Fragment (single)

def nonterminals : List Symbol := [.exp, .unit, .ranges, .range]

abbrev Sign := Symbol × Value

inductive Repeat where
  | once
  | plus
  | star
  deriving DecidableEq, Repr

inductive Joint where
  | next
  | bar
  deriving DecidableEq, Repr

inductive Span where
  | one (letter : Letter)
  | between (first last : Letter) (ordered : first.literal ≤ last.literal)
  deriving DecidableEq, Repr

mutual

inductive Atom where
  | letter (letter : Letter)
  | ofClass (negated : Bool) (first : Span) (more : List Span)
  | group (body : Body)

inductive Body where
  | last (atom : Atom) (times : Repeat)
  | more (atom : Atom) (times : Repeat) (joint : Joint) (rest : Body)

end

def mark (symbol : Symbol) : Sign := (symbol, .none)

def Letter.sign (letter : Letter) : Sign := (.char, .letter letter)

def Span.signs : Span → List Sign
  | one letter => [letter.sign]
  | between first last _ => [first.sign, mark .dash, last.sign]

def Repeat.signs : Repeat → List Sign
  | once => []
  | plus => [mark .plus]
  | star => [mark .times]

def Joint.signs : Joint → List Sign
  | next => []
  | bar => [mark .bar]

mutual

def Atom.signs : Atom → List Sign
  | .letter letter => [letter.sign]
  | .ofClass negated first more =>
    mark .lbracket :: (if negated then [mark .caret] else []) ++ (first :: more).flatMap Span.signs ++
      [mark .rbracket]
  | .group body => mark .lparen :: body.signs ++ [mark .rparen]

def Body.signs : Body → List Sign
  | .last atom times => atom.signs ++ times.signs
  | .more atom times joint rest => atom.signs ++ times.signs ++ joint.signs ++ rest.signs

end

def Letter.has : Letter → Nat → Prop
  | code n, c => c = n
  | wildcard, c => c ≤ maxCode

def Span.bounds : Span → Nat × Nat
  | one letter => (letter.literal, letter.literal)
  | between first last _ => (first.literal, last.literal)

def Span.has (s : Span) (c : Nat) : Prop := s.bounds.1 ≤ c ∧ c ≤ s.bounds.2

def Repeat.of : Repeat → Language Nat → Language Nat
  | once, L => L
  | plus, L => L * L∗
  | star, L => L∗

def Joint.of : Joint → Language Nat → Language Nat → Language Nat
  | next, L, M => L * M
  | bar, L, M => L + M

def Body.opens : Body → Bool
  | last (.letter _) _ | more (.letter _) _ _ _ => false
  | _ => true

/-- Whether the body that follows an item starts a new piece. -/
def Joint.cuts : Joint → Body → Bool
  | next, rest => rest.opens
  | bar, _ => false

mutual

/-- What an atom reads; `cutting` says whether bodies are cut into pieces. -/
def Atom.language (cutting : Bool) : Atom → Language Nat
  | .letter letter => single letter.has
  | .ofClass false first more => single fun c => ∃ s ∈ first :: more, s.has c
  | .ofClass true first more => single fun c => c ≤ maxCode ∧ ¬ ∃ s ∈ first :: more, s.has c
  | .group body => (body.pieces cutting).1 * (body.pieces cutting).2.prod

/-- What the first piece of a body reads, and what each of the later pieces reads. -/
def Body.pieces (cutting : Bool) : Body → Language Nat × List (Language Nat)
  | .last atom times => (times.of (atom.language cutting), [])
  | .more atom times joint rest =>
    let (piece, later) := rest.pieces cutting
    if cutting && joint.cuts rest then
      (times.of (atom.language cutting), piece :: later)
    else
      (joint.of (times.of (atom.language cutting)) piece, later)

end

def Body.language (cutting : Bool) (b : Body) : Language Nat :=
  (b.pieces cutting).1 * (b.pieces cutting).2.prod

theorem Atom.language_group (cutting : Bool) (b : Body) :
    (group b).language cutting = b.language cutting := by
  rw [language, Body.language]

theorem Body.language_last (cutting : Bool) (atom : Atom) (times : Repeat) :
    (last atom times).language cutting = times.of (atom.language cutting) := by
  simp [language, pieces]

theorem Body.pieces_false : (b : Body) → (b.pieces false).2 = []
  | last .. => by rw [pieces]
  | more _ _ _ rest => by
    rw [pieces]
    exact pieces_false rest

theorem Body.language_more (atom : Atom) (times : Repeat) (joint : Joint) (rest : Body) :
    (more atom times joint rest).language false =
      joint.of (times.of (atom.language false)) (rest.language false) := by
  simp [language, pieces, pieces_false]

end LongestMatch.Pattern
