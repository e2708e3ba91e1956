import LongestMatch.Proofs.Pattern.Paths
import LongestMatch.Proofs.Pattern.Sentences

/-!
# What the states of the table stand for

Every state knows the outline of what has been read: its mode, and of the number of open parentheses
as much as matters. Where the parser reads its next token, the table has an action on it exactly if
the outline can go on with it.
-/

namespace LongestMatch.Pattern

def stateModes (s : Nat) : List Mode :=
  if s ∈ [0, 5, 7, 18, 27] then [.item]
  else if s ∈ [2, 4, 14, 17, 20, 28, 32, 35, 37, 38] then [.unit]
  else if s ∈ [8, 9, 24, 25] then [.repeated]
  else if s ∈ [1, 6, 15, 19, 26, 31, 34] then Mode.closed
  else if s ∈ [3, 16] then [.opened]
  else if s ∈ [11, 30] then [.negated]
  else if s = 13 then [.letter]
  else if s = 23 then [.dash]
  else if s = 33 then [.bound]
  else [.letter, .bound]

/-- How much is known of the number of open parentheses. -/
inductive Nesting where
  | none
  | one
  | some
  | several
  | unknown

namespace Nesting

def allows : Nesting → (depth : Nat) → Bool
  | none, depth => depth = 0
  | one, depth => depth = 1
  | some, depth => 1 ≤ depth
  | several, depth => 2 ≤ depth
  | unknown, _ => true

theorem allows_congr (n : Nesting) {depth depth' : Nat} (large : 2 ≤ depth) (large' : 2 ≤ depth') :
    n.allows depth = n.allows depth' := by
  cases n <;> simp only [allows, decide_eq_decide] <;> omega

theorem exists_allows {n n' : Nesting} {symbol : Symbol}
    (few : ∀ depth < 4, n.allows depth = true →
      (Outline.depthAfter depth symbol).any n'.allows = true)
    {depth : Nat} (known : n.allows depth = true) :
    ∃ depth', Outline.depthAfter depth symbol = .some depth' ∧ n'.allows depth' = true := by
  rcases Nat.lt_or_ge depth 4 with small | large
  · exact (Option.any_eq_true _ _).1 (few depth small known)
  · rw [n.allows_congr (by omega) (show 2 ≤ 3 by decide)] at known
    obtain ⟨depth', after, allowed⟩ := (Option.any_eq_true _ _).1 (few 3 (by decide) known)
    cases symbol with
    | lparen =>
        cases after
        exact ⟨depth + 1, rfl, (n'.allows_congr (by omega) (by decide : 2 ≤ 4)).trans allowed⟩
    | rparen =>
        cases after
        refine ⟨depth - 1, ?_, (n'.allows_congr (by omega) (by decide : 2 ≤ 2)).trans allowed⟩
        rw [Outline.depthAfter, if_neg (by omega)]
    | endMark => cases after
    | _ =>
        cases after
        exact ⟨depth, rfl, (n'.allows_congr (by omega) (by decide : 2 ≤ 3)).trans allowed⟩

theorem allows_of_few {n n' : Nesting}
    (few : ∀ depth < 3, n.allows depth = true → n'.allows depth = true) {depth : Nat}
    (known : n.allows depth = true) : n'.allows depth = true := by
  rcases Nat.lt_or_ge depth 2 with small | large
  · exact few depth (by omega) known
  · rw [n'.allows_congr large (by decide : 2 ≤ 2)]
    rw [n.allows_congr large (by decide : 2 ≤ 2)] at known
    exact few 2 (by decide) known

end Nesting

def stateNesting (s : Nat) : Nesting :=
  if s ∈ [5, 15] then .one
  else if s ∈ [18, 31] then .several
  else if s ∈ [12, 13, 21, 23, 33] then .unknown
  else if s ∈ [14, 16, 17, 24, 25, 26, 27, 29, 30, 34, 35, 36, 37, 38] then .some
  else .none

def reading (s : Nat) : Bool :=
  s ∉ [1, 2, 6, 10, 12, 14, 15, 19, 21, 22, 26, 29, 31, 34, 36]

def terminals : List Symbol :=
  [.endMark, .char, .lparen, .rparen, .lbracket, .rbracket, .dash, .plus, .times, .caret, .bar]

theorem shift_nesting {s s' : Nat} {symbol : Symbol} (shift : (s, symbol, s') ∈ shifts)
    (terminal : symbol ∉ nonterminals) {depth : Nat} (known : (stateNesting s).allows depth = true) :
    ∃ depth', Outline.depthAfter depth symbol = some depth' ∧
      (stateNesting s').allows depth' = true := by
  have all : ∀ shift ∈ shifts, shift.2.1 ∉ nonterminals → ∀ depth < 4,
      (stateNesting shift.1).allows depth = true →
        (Outline.depthAfter depth shift.2.1).any (stateNesting shift.2.2).allows = true := by
    decide
  exact Nesting.exists_allows (all _ shift terminal) known

theorem shift_terminal {s s' : Nat} {symbol : Symbol} (shift : (s, symbol, s') ∈ shifts)
    (terminal : symbol ∉ nonterminals) {mode : Mode} (known : mode ∈ stateModes s) :
    ∃ mode' ∈ stateModes s', mode.advance symbol = some mode' := by
  have all : ∀ shift ∈ shifts, shift.2.1 ∉ nonterminals → ∀ mode ∈ stateModes shift.1,
      (mode.advance shift.2.1).any (· ∈ stateModes shift.2.2) = true := by decide
  obtain ⟨mode', step, member⟩ := (Option.any_eq_true _ _).1 (all _ shift terminal mode known)
  exact ⟨mode', of_decide_eq_true member, step⟩

theorem reading_of_shift {s s' : Nat} {symbol : Symbol} (shift : (s, symbol, s') ∈ shifts)
    (terminal : symbol ∉ nonterminals) : reading s' = true := by
  have all : ∀ shift ∈ shifts, shift.2.1 ∉ nonterminals → reading shift.2.2 = true := by
    decide
  exact all _ shift terminal

theorem shift_nonterminal {s s' : Nat} {symbol : Symbol} (shift : (s, symbol, s') ∈ shifts)
    (inner : symbol ∈ nonterminals) : (∀ mode ∈ stateModes s, mode ∈ Outline.before symbol) ∧
      (∀ mode ∈ Outline.after symbol, mode ∈ stateModes s') ∧
        ∀ depth, (stateNesting s).allows depth = true → (stateNesting s').allows depth = true := by
  have all : ∀ shift ∈ shifts, shift.2.1 ∈ nonterminals →
      (∀ mode ∈ stateModes shift.1, mode ∈ Outline.before shift.2.1) ∧
        (∀ mode ∈ Outline.after shift.2.1, mode ∈ stateModes shift.2.2) ∧
          ∀ depth < 3, (stateNesting shift.1).allows depth = true →
            (stateNesting shift.2.2).allows depth = true := by decide
  obtain ⟨begins, ends, few⟩ := all _ shift inner
  exact ⟨begins, ends, fun depth => Nesting.allows_of_few few⟩

theorem Shows.derivesFrom {symbol : Symbol} {signs : List Sign} {v : Value}
    (shows_ : Shows symbol signs v) (inner : symbol ∈ nonterminals) : DerivesFrom symbol signs := by
  simp only [nonterminals, List.mem_cons, List.not_mem_nil, or_false] at inner
  rcases inner with rfl | rfl | rfl | rfl
  · obtain ⟨b, _, rfl, _⟩ := shows_
    exact b.derives
  · obtain ⟨a, _, rfl, _⟩ := shows_
    exact a.derives
  · obtain ⟨first, more, _, rfl, _⟩ := shows_
    exact first.flatMap_derives more
  · obtain ⟨span, rfl, _⟩ := shows_
    exact span.derives

theorem Shows.kinds_eq {symbol : Symbol} {signs : List Sign} {v : Value}
    (shows_ : Shows symbol signs v) (terminal : symbol ∉ nonterminals) : kinds signs = [symbol] := by
  cases symbol with
  | char =>
      obtain ⟨letter, rfl, _⟩ := shows_
      rfl
  | exp | unit | ranges | range => exact (terminal (by decide)).elim
  | _ =>
      cases shows_
      rfl

theorem Path.follow {s : Nat} {v : Value} {stack : List (Nat × Value)} {signs : List Sign}
    (path : Path ((s, v) :: stack) signs) : ∃ o, Outline.start.follow (kinds signs) = some o ∧
      o.mode ∈ stateModes s ∧ (stateNesting s).allows o.depth = true := by
  generalize whole : (s, v) :: stack = entries at path
  induction path generalizing s v stack with
  | start =>
      cases whole
      exact ⟨.start, rfl, by decide, by decide⟩
  | @shift s _ symbol v _ stack signs more below action shown ih =>
      cases whole
      obtain ⟨o, followed, mode, nesting⟩ := ih rfl
      rw [kinds_append, Outline.follow_append, followed]
      show ∃ o', o.follow (kinds more) = some o' ∧ _
      have shift := mem_shifts action
      -- What a nonterminal derives may begin and end in several modes, but closes what it opens.
      by_cases inner : symbol ∈ nonterminals
      · obtain ⟨begins, ends, kept⟩ := shift_nonterminal shift inner
        obtain ⟨o', followed', mode', same⟩ := (shown.derivesFrom inner).follow (begins _ mode)
        exact ⟨o', followed', ends _ mode', kept _ (same ▸ nesting)⟩
      · obtain ⟨mode', member, step⟩ := shift_terminal shift inner mode
        obtain ⟨depth', nested, allowed⟩ := shift_nesting shift inner nesting
        refine ⟨⟨mode', depth'⟩, ?_, member, allowed⟩
        rw [shown.kinds_eq inner, Outline.follow_singleton]
        exact Outline.advance_eq_some.2 ⟨step, nested⟩

theorem Path.lt {s : Nat} {v : Value} {stack : List (Nat × Value)} {signs : List Sign}
    (path : Path ((s, v) :: stack) signs) : s < 39 := by
  have all : ∀ shift ∈ shifts, shift.2.2 < 39 := by decide
  cases path with
  | start => decide
  | shift _ action _ => exact all _ (mem_shifts action)

theorem advance_congr {mode : Mode} {depth : Nat} (symbol : Symbol) (large : 2 ≤ depth) :
    (Outline.advance ⟨mode, depth⟩ symbol).isSome = (Outline.advance ⟨mode, 2⟩ symbol).isSome := by
  have nested : (Outline.depthAfter depth symbol).isSome = (Outline.depthAfter 2 symbol).isSome := by
    have some : depth ≠ 0 := by omega
    cases symbol <;> simp [Outline.depthAfter, some]
  simp only [Outline.advance]
  cases mode.advance symbol with
  | none => rfl
  | some mode' =>
      cases here : Outline.depthAfter depth symbol <;>
        cases there : Outline.depthAfter 2 symbol <;> simp [here, there] at nested ⊢

theorem action_isSome {s : Nat} {o : Outline} {symbol : Symbol} (lt : s < 39)
    (reads : reading s = true) (terminal : symbol ∈ terminals) (mode : o.mode ∈ stateModes s)
    (nesting : (stateNesting s).allows o.depth = true) :
    (table.action? s symbol).isSome = (o.advance symbol).isSome := by
  have all : ∀ s < 39, reading s = true → ∀ symbol ∈ terminals, ∀ mode ∈ stateModes s,
      ∀ depth < 3, (stateNesting s).allows depth = true →
        (table.action? s symbol).isSome = (Outline.advance ⟨mode, depth⟩ symbol).isSome := by
    decide
  obtain ⟨mode, depth⟩ := o
  rcases Nat.lt_or_ge depth 2 with small | large
  · exact all s lt reads symbol terminal _ mode depth (by omega) nesting
  · rw [advance_congr symbol large]
    rw [Nesting.allows_congr _ large (by decide : 2 ≤ 2)] at nesting
    exact all s lt reads symbol terminal _ mode 2 (by decide) nesting

theorem action_error (s : Nat) : table.action? s .error = none := by
  cases known : table.action? s .error with
  | none => rfl
  | some action =>
      have all : ∀ row ∈ rows.toList.zipIdx, ∀ entry ∈ row.1, entry.1 ≠ .error := by decide
      obtain ⟨row, member, entry⟩ := mem_rows known
      exact (all _ member _ entry rfl).elim

theorem eq_of_dash {s : Nat} (lt : s < 39) (mode : .dash ∈ stateModes s) : s = 23 := by
  have all : ∀ s < 39, .dash ∈ stateModes s → s = 23 := by decide
  exact all s lt mode

theorem eq_of_bound {s : Nat} (lt : s < 39) (reads : reading s = true) (mode : .bound ∈ stateModes s) :
    s = 33 := by
  have all : ∀ s < 39, reading s = true → .bound ∈ stateModes s → s = 33 := by decide
  exact all s lt reads mode

theorem action_bound {symbol : Symbol} (terminal : symbol ∈ terminals)
    (some : (table.action? 33 symbol).isSome = true) : table.action? 33 symbol = .some (.reduce 13) := by
  revert symbol
  decide

end LongestMatch.Pattern
