import LongestMatch.Proofs.Pattern.Language

namespace LongestMatch.Pattern

open Build

mutual

def Atom.uncut : Atom → Bool
  | .letter _ | .ofClass .. => true
  | .group body => body.uncut false

/-- The body is not cut behind a bar, and neither are those in it; `barred` says whether there has
been a bar before. -/
def Body.uncut (barred : Bool) : Body → Bool
  | .last atom _ => atom.uncut
  | .more atom _ joint rest =>
    atom.uncut && !(barred && joint.cuts rest) && rest.uncut (barred || joint = .bar)

end

theorem Body.language_next (cutting : Bool) (atom : Atom) (times : Repeat) (rest : Body) :
    (more atom times .next rest).language cutting =
      times.of (atom.language cutting) * rest.language cutting := by
  rw [language, pieces, language]
  dsimp only
  split
  · rw [List.prod_cons]
  · rw [Joint.of, mul_assoc]

theorem Body.language_bar {atom : Atom} {times : Repeat} {rest : Body}
    (whole : (rest.pieces true).2 = []) : (more atom times .bar rest).language true =
      times.of (atom.language true) + rest.language true := by
  simp [language, pieces, Joint.cuts, Joint.of, whole]

theorem Body.pieces_of_uncut : (b : Body) → b.uncut true = true → (b.pieces true).2 = []
  | last atom times, _ => by rw [pieces]
  | more atom times joint rest, uncut => by
    rw [Body.uncut, Bool.true_and, Bool.true_or, Bool.and_eq_true, Bool.and_eq_true,
      Bool.not_eq_true'] at uncut
    rw [pieces, uncut.1.2]
    exact rest.pieces_of_uncut uncut.2

mutual

theorem Atom.language_of_uncut : (a : Atom) → a.uncut = true → a.language true = a.language false
  | .letter _, _ => by rw [Atom.language, Atom.language]
  | .ofClass false _ _, _ => by rw [Atom.language, Atom.language]
  | .ofClass true _ _, _ => by rw [Atom.language, Atom.language]
  | .group body, uncut => by
    rw [Atom.uncut] at uncut
    rw [Atom.language_group, Atom.language_group, body.language_of_uncut false uncut]

theorem Body.language_of_uncut : (b : Body) → (barred : Bool) → b.uncut barred = true →
    b.language true = b.language false
  | .last atom times, barred, uncut => by
    rw [Body.uncut] at uncut
    rw [Body.language_last, Body.language_last, atom.language_of_uncut uncut]
  | .more atom times .next rest, barred, uncut => by
    rw [Body.uncut, Bool.and_eq_true, Bool.and_eq_true] at uncut
    rw [Body.language_next, Body.language_next, atom.language_of_uncut uncut.1.1,
      rest.language_of_uncut _ uncut.2]
  | .more atom times .bar rest, barred, uncut => by
    rw [Body.uncut, Bool.and_eq_true, Bool.and_eq_true] at uncut
    have behind : rest.uncut true = true := by simpa using uncut.2
    rw [Body.language_bar (rest.pieces_of_uncut behind), Body.language_more,
      atom.language_of_uncut uncut.1.1, rest.language_of_uncut true behind]
    rfl

end

variable {source : String} {dotMatchesAny : Bool} {f : Fragment} {x y : Logged Graph}

/-- The automaton of a pattern matches what the reading without cuts reads exactly if both readings
of the body read the same texts. This is so if no body is cut behind a bar. -/
theorem matches_uncut_iff (compiled : compile source dotMatchesAny x = .ok f y) (id : HandlerId) :
    ∃ a z, automaton source dotMatchesAny id x = .ok a z ∧
      ∀ b : Body, b.Spelled dotMatchesAny source →
        ((∀ text : String, ∃ yes, a.matches? text = .ok yes ∧
            (yes = true ↔ codes text.toList ∈ b.language false)) ↔
          ∀ text : String, codes text.toList ∈ b.language true ↔
            codes text.toList ∈ b.language false) ∧
        (b.uncut false = true → ∀ text : String, ∃ yes, a.matches? text = .ok yes ∧
          (yes = true ↔ codes text.toList ∈ b.language false)) := by
  obtain ⟨a, z, made, single, accepts⟩ := exists_automaton compiled id
  refine ⟨a, z, made, fun b spelled => ?_⟩
  have matched : ∀ text : String, ∃ yes, a.matches? text = .ok yes ∧
      (yes = true ↔ codes text.toList ∈ b.language true) := by
    intro text
    obtain ⟨yes, matched, yes_iff⟩ := single.matchesFrom_eq single.start text.toList
    exact ⟨yes, matched, yes_iff.trans (accepts b spelled _)⟩
  refine ⟨⟨fun documented text => ?_, fun agree text => ?_⟩, fun uncut => ?_⟩
  · obtain ⟨yes, result, yes_iff⟩ := matched text
    obtain ⟨yes', result', yes_iff'⟩ := documented text
    rw [result] at result'
    cases result'
    exact yes_iff.symm.trans yes_iff'
  · obtain ⟨yes, result, yes_iff⟩ := matched text
    exact ⟨yes, result, yes_iff.trans (agree text)⟩
  · rw [← b.language_of_uncut false uncut]
    exact matched

theorem Spells.symbol {c : Char} {symbol : Symbol} {text : List Char} {signs : List Sign}
    (known : Symbol.sign? c = some symbol) (rest : Spells dotMatchesAny text signs) :
    Spells dotMatchesAny (c :: text) (mark symbol :: signs) := .cons (.mark known) rest

theorem Spells.char {c : Char} {text : List Char} {signs : List Sign}
    (plain : Symbol.sign? c = none ∧ c ≠ '\\' ∧ c ≠ '.' ∧ c.toNat ≤ maxCode)
    (rest : Spells dotMatchesAny text signs) :
    Spells dotMatchesAny (c :: text) ((Letter.code c.toNat).sign :: signs) :=
  .cons (.plain plain.1 plain.2.1 (fun dot => (plain.2.2.1 dot).elim) plain.2.2.2) rest

def barredTail : Body :=
  .more (.group (.last (.letter (.code 'a'.toNat)) .once)) .once .next
    (.more (.letter (.code 'b'.toNat)) .once .bar (.last (.letter (.code 'c'.toNat)) .once))

theorem matches_uncut_iff_barredTail :
    (∃ f y, compile "(a)b|c" true { state := ∅ } = .ok f y) ∧ barredTail.Spelled true "(a)b|c" ∧
      barredTail.uncut false = true ∧
        ∃ a z, automaton "(a)b|c" true 0 { state := ∅ } = .ok a z ∧
          ∀ text : String, ∃ yes, a.matches? text = .ok yes ∧
            (yes = true ↔ codes text.toList ∈ barredTail.language false) := by
  obtain ⟨f, y, compiled⟩ := exists_of_succeeds
    (by cbv : succeeds (compile "(a)b|c" true { state := ∅ }) = true)
  have spelled : barredTail.Spelled true "(a)b|c" :=
    .symbol rfl (.char (by decide) (.symbol rfl (.char (by decide) (.symbol rfl
      (.char (by decide) .nil)))))
  obtain ⟨a, z, made, readings⟩ := matches_uncut_iff compiled 0
  exact ⟨⟨f, y, compiled⟩, spelled, rfl, a, z, made, (readings barredTail spelled).2 rfl⟩

def groupedTail : Body :=
  .more (.letter (.code 'a'.toNat)) .once .bar (.more (.letter (.code 'b'.toNat)) .once .next
    (.last (.group (.last (.letter (.code 'c'.toNat)) .once)) .once))

def answer? (text : String) : EStateM.Result Failure (Logged Graph) (Automaton Unit) → Option Bool
  | .ok a _ => (a.matches? text).toOption
  | .error _ _ => none

theorem exists_of_answer? {text : String} {yes : Bool}
    {built : EStateM.Result Failure (Logged Graph) (Automaton Unit)}
    (answered : answer? text built = some yes) :
    ∃ a z, built = .ok a z ∧ a.matches? text = .ok yes := by
  cases built with
  | error e z => cases answered
  | ok a z =>
      rw [answer?] at answered
      cases matched : a.matches? text with
      | error e =>
          rw [matched] at answered
          cases answered
      | ok yes' =>
          rw [matched] at answered
          cases answered
          exact ⟨a, z, rfl, matched⟩

/-- The text `a` is an alternative of its own in the reading without cuts, but does not match; with
a plain character in place of the parenthesis it does. -/
theorem groupedTail_unmatched : groupedTail.Spelled true "a|b(c)" ∧
    codes "a".toList ∈ groupedTail.language false ∧
    (∃ a z, automaton "a|b(c)" true 0 { state := ∅ } = .ok a z ∧ a.matches? "a" = .ok false) ∧
    ∃ a z, automaton "a|bc" true 0 { state := ∅ } = .ok a z ∧ a.matches? "a" = .ok true := by
  refine ⟨?_, ?_, exists_of_answer? (by cbv), exists_of_answer? (by cbv)⟩
  · exact .char (by decide) (.symbol rfl (.char (by decide) (.symbol rfl (.char (by decide)
      (.symbol rfl .nil)))))
  · rw [groupedTail, Body.language_more]
    refine .inl ?_
    rw [Repeat.of, Atom.language]
    exact ⟨97, rfl, rfl⟩

end LongestMatch.Pattern
