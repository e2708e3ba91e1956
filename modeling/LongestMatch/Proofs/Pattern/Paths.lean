import Mathlib.Tactic.IntervalCases
import LongestMatch.Proofs.Parse.Step
import LongestMatch.Proofs.Pattern.Spelling
import LongestMatch.Pattern.Compile

/-!
# Paths through the table of patterns

Every entry of the parser's stack stands for signs that its symbol derives. A reduction finds on the
stack what its production says, because all paths to a state that reduces end in this way.
-/

namespace LongestMatch.Pattern

open Parse (Action)

def Body.append : Body → Joint → Body → Body
  | last atom times, joint, rest => more atom times joint rest
  | more atom times joint' rest', joint, rest => more atom times joint' (rest'.append joint rest)

theorem Body.signs_append (joint : Joint) (rest b : Body) :
    (b.append joint rest).signs = b.signs ++ joint.signs ++ rest.signs := by
  cases b with
  | last atom times => rw [append, signs, signs]
  | more atom times joint' rest' =>
      rw [append, signs, signs, signs_append joint rest rest']
      simp only [List.append_assoc]

def Shows : Symbol → List Sign → Value → Prop
  | .char, signs, v => ∃ letter : Letter, signs = [letter.sign] ∧ v = .letter letter
  | .range, signs, v => ∃ span : Span, signs = span.signs ∧ v = .range span.bounds.1 span.bounds.2
  | .ranges, signs, v => ∃ (first : Span) (more : List Span) (bounds : List (Nat × Nat)),
      signs = (first :: more).flatMap Span.signs ∧ v = .ranges bounds
  | .unit, signs, v => ∃ (a : Atom) (f : Fragment), signs = a.signs ∧ v = .fragment f
  | .exp, signs, v => ∃ (b : Body) (f : Fragment), signs = b.signs ∧ v = .fragment f
  | symbol, signs, _ => signs = [mark symbol]

theorem Lexeme.shows {dotMatchesAny : Bool} {lexeme : List Char} {sign : Sign}
    (spelled : Lexeme dotMatchesAny lexeme sign) : Shows sign.1 [sign] sign.2 := by
  have letter : ∀ l : Letter, Shows l.sign.1 [l.sign] l.sign.2 := fun l => ⟨l, rfl, rfl⟩
  cases spelled with
  | @mark c symbol known =>
      unfold Symbol.sign? at known
      split at known <;> first | (cases known; rfl) | cases known
  | dot _ => exact letter _
  | plain _ _ _ _ => exact letter _
  | escape _ => exact letter _
  | hex _ _ => exact letter _

def rightHand : Nat → List Symbol
  | 0 => [.exp]
  | 1 => [.unit]
  | 2 => [.exp, .exp]
  | 3 => [.exp, .bar, .exp]
  | 4 => [.unit, .plus]
  | 5 => [.unit, .times]
  | 6 => [.lbracket, .ranges, .rbracket]
  | 7 => [.lbracket, .caret, .ranges, .rbracket]
  | 8 => [.char]
  | 9 => [.lparen, .exp, .rparen]
  | 10 => [.ranges, .range]
  | 11 => [.range]
  | 12 => [.char]
  | 13 => [.char, .dash, .char]
  | _ => []

inductive Holds : List Symbol → List (Nat × Value) → List Sign → Prop
  | nil : Holds [] [] []
  | cons {symbol : Symbol} {symbols : List Symbol} {s : Nat} {v : Value}
      {entries : List (Nat × Value)} {signs more : List Sign} :
      Shows symbol more v → Holds symbols entries signs →
      Holds (symbol :: symbols) ((s, v) :: entries) (signs ++ more)

theorem exists_fragment {work : Build Fragment} {x x' : Logged Graph} {value : Value}
    (built : (do return .fragment (← work) : Build Value) x = .ok value x') :
    ∃ f, value = .fragment f := by
  obtain ⟨f, _, _, done⟩ := Parse.bind_eq_ok.1 built
  cases done
  exact ⟨f, rfl⟩

theorem shows_combine {production : Nat} {head : Symbol} {length : Nat}
    (known : productions[production]? = some (head, length)) (other : production ≠ 0)
    {entries : List (Nat × Value)} {signs : List Sign}
    (holds : Holds (rightHand production).reverse entries signs) {value : Value}
    {x x' : Logged Graph}
    (built : combine production (entries.map Prod.snd).reverse x = .ok value x') :
    Shows head signs value := by
  have bounded : production < 14 := by
    obtain ⟨lt, _⟩ := List.getElem?_eq_some_iff.1 known
    exact lt
  interval_cases production
  · exact (other rfl).elim
  · -- exp -> unit
    cases known
    obtain _ | ⟨⟨a, f, rfl, rfl⟩, _ | _⟩ := holds
    cases built
    exact ⟨.last a .once, f, by simp [Body.signs, Repeat.signs], rfl⟩
  · -- exp -> exp exp
    cases known
    obtain _ | ⟨⟨b₂, f₂, rfl, rfl⟩, _ | ⟨⟨b₁, f₁, rfl, rfl⟩, _ | _⟩⟩ := holds
    obtain ⟨f, rfl⟩ := exists_fragment built
    exact ⟨b₁.append .next b₂, f, by simp [Body.signs_append, Joint.signs], rfl⟩
  · -- exp -> exp | exp
    cases known
    obtain _ | ⟨⟨b₂, f₂, rfl, rfl⟩, _ | ⟨rfl, _ | ⟨⟨b₁, f₁, rfl, rfl⟩, _ | _⟩⟩⟩ := holds
    obtain ⟨f, rfl⟩ := exists_fragment built
    exact ⟨b₁.append .bar b₂, f, by simp [Body.signs_append, Joint.signs], rfl⟩
  · -- exp -> unit +
    cases known
    obtain _ | ⟨rfl, _ | ⟨⟨a, f, rfl, rfl⟩, _ | _⟩⟩ := holds
    -- Opened by its equation, because `plus` is too large to be unfolded.
    replace built : combine 4 [.fragment f, _] x = .ok value x' := built
    rw [combine] at built
    obtain ⟨f, rfl⟩ := exists_fragment built
    exact ⟨.last a .plus, f, by simp [Body.signs, Repeat.signs], rfl⟩
  · -- exp -> unit *
    cases known
    obtain _ | ⟨rfl, _ | ⟨⟨a, f, rfl, rfl⟩, _ | _⟩⟩ := holds
    obtain ⟨f, rfl⟩ := exists_fragment built
    exact ⟨.last a .star, f, by simp [Body.signs, Repeat.signs], rfl⟩
  · -- unit -> [ ranges ]
    cases known
    obtain _ | ⟨rfl, _ | ⟨⟨first, more, bounds, rfl, rfl⟩, _ | ⟨rfl, _ | _⟩⟩⟩ := holds
    obtain ⟨f, rfl⟩ := exists_fragment built
    exact ⟨.ofClass false first more, f, by simp [Atom.signs], rfl⟩
  · -- unit -> [ ^ ranges ]
    cases known
    obtain _ | ⟨rfl, _ | ⟨⟨first, more, bounds, rfl, rfl⟩, _ | ⟨rfl, _ | ⟨rfl, _ | _⟩⟩⟩⟩ := holds
    obtain ⟨f, rfl⟩ := exists_fragment built
    exact ⟨.ofClass true first more, f, by simp [Atom.signs], rfl⟩
  · -- unit -> char
    cases known
    obtain _ | ⟨⟨letter, rfl, rfl⟩, _ | _⟩ := holds
    obtain ⟨f, rfl⟩ := exists_fragment built
    exact ⟨.letter letter, f, by simp [Atom.signs], rfl⟩
  · -- unit -> ( exp )
    cases known
    obtain _ | ⟨rfl, _ | ⟨⟨b, f, rfl, rfl⟩, _ | ⟨rfl, _ | _⟩⟩⟩ := holds
    cases built
    exact ⟨.group b, f, by simp [Atom.signs], rfl⟩
  · -- ranges -> ranges range
    cases known
    obtain _ | ⟨⟨span, rfl, rfl⟩, _ | ⟨⟨first, more, bounds, rfl, rfl⟩, _ | _⟩⟩ := holds
    cases built
    exact ⟨first, more ++ [span], _, by simp, rfl⟩
  · -- ranges -> range
    cases known
    obtain _ | ⟨⟨span, rfl, rfl⟩, _ | _⟩ := holds
    cases built
    exact ⟨span, [], _, by simp, rfl⟩
  · -- range -> char
    cases known
    obtain _ | ⟨⟨letter, rfl, rfl⟩, _ | _⟩ := holds
    cases built
    exact ⟨.one letter, rfl, rfl⟩
  · -- range -> char - char
    cases known
    obtain _ | ⟨⟨last, rfl, rfl⟩, _ | ⟨rfl, _ | ⟨⟨first, rfl, rfl⟩, _ | _⟩⟩⟩ := holds
    simp only [List.map_cons, List.map_nil, List.reverse_cons, List.reverse_nil, List.nil_append,
      List.cons_append, combine] at built
    split at built
    · cases built
    · rename_i ordered
      cases built
      exact ⟨.between first last (Nat.not_lt.1 ordered), rfl, rfl⟩

def shifts : List (Nat × Symbol × Nat) :=
  rows.toList.zipIdx.flatMap fun (row, s) => row.filterMap fun (symbol, action) =>
    match action with
    | .shift s' => some (s, symbol, s')
    | .reduce _ => none

def endsWith : List Symbol → Nat → Bool
  | [], _ => true
  | symbol :: symbols, s' => s' ≠ 0 && shifts.all fun shift =>
      shift.2.2 ≠ s' || shift.2.1 = symbol && endsWith symbols shift.1

theorem mem_rows {s : Nat} {symbol : Symbol} {action : Action}
    (known : table.action? s symbol = some action) :
    ∃ row, (row, s) ∈ rows.toList.zipIdx ∧ (symbol, action) ∈ row := by
  rw [Parse.Table.action?, Option.bind_eq_some_iff] at known
  obtain ⟨row, found, known⟩ := known
  obtain ⟨⟨symbol', action'⟩, first, rfl⟩ := Option.map_eq_some_iff.1 known
  have same := List.find?_some first
  obtain rfl : symbol' = symbol := of_decide_eq_true same
  refine ⟨row, List.mem_zipIdx_iff_getElem?.2 ?_, List.mem_of_find?_eq_some first⟩
  simpa [table] using found

theorem mem_shifts {s s' : Nat} {symbol : Symbol}
    (action : table.action? s symbol = some (.shift s')) : (s, symbol, s') ∈ shifts := by
  obtain ⟨row, member, entry⟩ := mem_rows action
  exact List.mem_flatMap.2 ⟨_, member, List.mem_filterMap.2 ⟨_, entry, rfl⟩⟩

theorem reduce_fits {s p : Nat} {symbol : Symbol}
    (action : table.action? s symbol = some (.reduce p)) :
    endsWith (rightHand p).reverse s = true ∧ symbol ∉ nonterminals ∧
      (p = 0 → s = 1 ∧ symbol = .endMark) := by
  obtain ⟨row, member, entry⟩ := mem_rows action
  have all : rows.toList.zipIdx.all fun (row, s) => row.all fun (symbol, action) =>
      match action with
      | .shift _ => true
      | .reduce p => endsWith (rightHand p).reverse s && decide (symbol ∉ nonterminals) &&
          decide (p = 0 → s = 1 ∧ symbol = .endMark) := by decide +kernel
  have fits := List.all_eq_true.1 (List.all_eq_true.1 all _ member) _ entry
  simpa only [Bool.and_eq_true, decide_eq_true_eq, and_assoc] using fits

theorem production_fits {p : Nat} {head : Symbol} {length : Nat}
    (known : productions[p]? = some (head, length)) :
    (rightHand p).length = length ∧ (p ≠ 0 → head ∈ nonterminals) := by
  have all : productions.zipIdx.all fun (production, p) =>
      (rightHand p).length = production.2 && decide (p ≠ 0 → production.1 ∈ nonterminals) := by decide
  have fits := List.all_eq_true.1 all ((head, length), p) (List.mem_zipIdx_iff_getElem?.2 known)
  simpa only [Bool.and_eq_true, decide_eq_true_eq] using fits

/-- A stack that follows the table from its first state, where each entry shows its signs. -/
inductive Path : List (Nat × Value) → List Sign → Prop
  | start (v : Value) : Path [(0, v)] []
  | shift {s s' : Nat} {symbol : Symbol} {v v' : Value} {stack : List (Nat × Value)}
      {signs more : List Sign} :
      Path ((s, v) :: stack) signs → table.action? s symbol = some (.shift s') →
      Shows symbol more v' → Path ((s', v') :: (s, v) :: stack) (signs ++ more)

theorem Path.pop {symbols : List Symbol} {s : Nat} {v : Value} {stack : List (Nat × Value)}
    {signs : List Sign} (path : Path ((s, v) :: stack) signs) (ends : endsWith symbols s = true) :
    ∃ popped entry rest front more, (s, v) :: stack = popped ++ entry :: rest ∧
      popped.length = symbols.length ∧ signs = front ++ more ∧ Holds symbols popped more ∧
        Path (entry :: rest) front := by
  induction symbols generalizing s v stack signs with
  | nil => exact ⟨[], _, _, signs, [], rfl, rfl, (List.append_nil _).symm, .nil, path⟩
  | cons symbol symbols ih =>
      rw [endsWith, Bool.and_eq_true, List.all_eq_true] at ends
      cases path with
      | start => cases ends.1
      | @shift s _ symbol' v _ stack signs more path action shows =>
          have enters := ends.2 _ (mem_shifts action)
          rw [Bool.or_eq_true, Bool.and_eq_true] at enters
          have enters := enters.resolve_left (by simp)
          obtain rfl : symbol' = symbol := of_decide_eq_true enters.1
          obtain ⟨popped, entry, rest, front, inner, shape, length, rfl, holds, path⟩ :=
            ih path enters.2
          exact ⟨_ :: popped, entry, rest, front, inner ++ more, by rw [shape]; rfl, by simp [length],
            List.append_assoc .., .cons shows holds, path⟩

theorem Path.whole {v : Value} {stack : List (Nat × Value)} {signs : List Sign}
    (path : Path ((1, v) :: stack) signs) : ∃ b : Body, signs = b.signs := by
  have entered : ∀ shift ∈ shifts, shift.2.2 ≠ 0 ∧
      (shift.2.2 = 1 → shift.1 = 0 ∧ shift.2.1 = .exp) := by decide
  cases path with
  | shift path action shows =>
      obtain ⟨rfl, rfl⟩ := (entered _ (mem_shifts action)).2 rfl
      obtain ⟨b, _, rfl, _⟩ := shows
      cases path with
      | start => exact ⟨b, rfl⟩
      | shift _ action _ => exact ((entered _ (mem_shifts action)).1 rfl).elim

theorem not_shift_endMark {s s' : Nat} : table.action? s .endMark ≠ some (.shift s') := by
  intro action
  have none : ∀ shift ∈ shifts, shift.2.1 ≠ .endMark := by decide
  exact none _ (mem_shifts action) rfl

theorem Path.pop_of_reduce {p s : Nat} {symbol head : Symbol} {length : Nat} {v : Value}
    {stack : List (Nat × Value)} {signs : List Sign} (path : Path ((s, v) :: stack) signs)
    (action : table.action? s symbol = some (.reduce p))
    (known : productions[p]? = some (head, length)) :
    ∃ popped entry below front more, (s, v) :: stack = popped ++ entry :: below ∧
      popped.length = length ∧ signs = front ++ more ∧ Holds (rightHand p).reverse popped more ∧
        Path (entry :: below) front := by
  obtain ⟨popped, entry, below, front, more, shape, size, same, holds, rest⟩ :=
    path.pop (reduce_fits action).1
  rw [List.length_reverse, (production_fits known).1] at size
  exact ⟨popped, entry, below, front, more, shape, size, same, holds, rest⟩

theorem Path.reduce {p s : Nat} {symbol head : Symbol} {length : Nat} {v value : Value}
    {stack : List (Nat × Value)} {signs : List Sign} (path : Path ((s, v) :: stack) signs)
    (action : table.action? s symbol = some (.reduce p)) (known : productions[p]? = some (head, length))
    (other : p ≠ 0) {y y' : Logged Graph}
    (built : combine p ((((s, v) :: stack).take length).map Prod.snd).reverse y = .ok value y') :
    ∃ front more, signs = front ++ more ∧ Path (((s, v) :: stack).drop length) front ∧
      Shows head more value := by
  obtain ⟨popped, entry, rest, front, more, shape, size, rfl, holds, below⟩ :=
    path.pop_of_reduce action known
  rw [shape, ← size, List.take_left] at built
  rw [shape, ← size, List.drop_left]
  exact ⟨front, more, rfl, below, shows_combine known other holds built⟩

end LongestMatch.Pattern
