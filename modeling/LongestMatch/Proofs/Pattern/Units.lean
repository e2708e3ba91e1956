import LongestMatch.Proofs.Pattern.Moves

namespace LongestMatch.Pattern

open Position Build
open Fragment (single)

inductive Level where
  | outer
  | inner

namespace Level

def unit : Level → Nat
  | outer => 2
  | inner => 14

def lbracket : Level → Nat
  | outer => 3
  | inner => 16

def char : Level → Nat
  | outer => 4
  | inner => 17

def lparen : Level → Nat
  | outer => 5
  | inner => 18

def plus : Level → Nat
  | outer => 8
  | inner => 24

def times : Level → Nat
  | outer => 9
  | inner => 25

def bar : Level → Nat
  | outer => 7
  | inner => 27

def after : Level → Nat
  | outer => 6
  | inner => 26

def choice : Level → Nat
  | outer => 19
  | inner => 34

def caret : Level → Nat
  | outer => 11
  | inner => 30

def ranges : Level → (negated : Bool) → Nat
  | outer, false => 10
  | outer, true => 22
  | inner, false => 29
  | inner, true => 36

def rbracket : Level → (negated : Bool) → Nat
  | outer, false => 20
  | outer, true => 32
  | inner, false => 35
  | inner, true => 38

def rparen : Level → Nat
  | outer => 28
  | inner => 37

def closer : Level → Symbol
  | outer => .endMark
  | inner => .rparen

def ends (l : Level) : List Symbol := [.char, .lparen, .lbracket, .bar, l.closer]

def follows (l : Level) : List Symbol := .plus :: .times :: l.ends

def opened (l : Level) (negated : Bool) : Nat := if negated then l.caret else l.lbracket

theorem action_char (l : Level) : ∀ symbol ∈ l.follows,
    table.action? l.char symbol = some (.reduce 8) := by cases l <;> decide

theorem action_rbracket (l : Level) (negated : Bool) : ∀ symbol ∈ l.follows,
    table.action? (l.rbracket negated) symbol = some (.reduce (if negated then 7 else 6)) := by
  cases l <;> cases negated <;> decide

theorem action_rparen (l : Level) : ∀ symbol ∈ l.follows,
    table.action? l.rparen symbol = some (.reduce 9) := by cases l <;> decide

theorem action_unit (l : Level) : ∀ symbol ∈ l.ends,
    table.action? l.unit symbol = some (.reduce 1) := by cases l <;> decide

theorem action_plus (l : Level) : ∀ symbol ∈ l.ends,
    table.action? l.plus symbol = some (.reduce 4) := by cases l <;> decide

theorem action_times (l : Level) : ∀ symbol ∈ l.ends,
    table.action? l.times symbol = some (.reduce 5) := by cases l <;> decide

theorem shift_plus (l : Level) : table.action? l.unit .plus = some (.shift l.plus) := by
  cases l <;> rfl

theorem shift_times (l : Level) : table.action? l.unit .times = some (.shift l.times) := by
  cases l <;> rfl

theorem shift_caret (l : Level) : table.action? l.lbracket .caret = some (.shift l.caret) := by
  cases l <;> rfl

end Level

def Valid (signs : List Sign) : Prop := ∀ n, (Letter.code n).sign ∈ signs → n ≤ maxCode

theorem Valid.left {signs more : List Sign} (valid : Valid (signs ++ more)) : Valid signs :=
  fun n member => valid n (List.mem_append_left _ member)

theorem Valid.right {signs more : List Sign} (valid : Valid (signs ++ more)) : Valid more :=
  fun n member => valid n (List.mem_append_right _ member)

theorem Spells.valid {dotMatchesAny : Bool} {text : List Char} {signs : List Sign}
    (spells : Spells dotMatchesAny text signs) : Valid signs := by
  induction spells with
  | nil => intro n member; cases member
  | cons lexeme _ ih =>
      intro n member
      rcases List.mem_cons.1 member with rfl | member
      · exact lexeme.code_le
      · exact ih n member

theorem Valid.literal_le {signs : List Sign} (valid : Valid signs) {letter : Letter}
    (member : letter.sign ∈ signs) : letter.literal ≤ maxCode := by
  cases letter with
  | code n => exact valid n member
  | wildcard => decide

variable {dotMatchesAny : Bool} {s t : Nat} {v : Value} {stack : List (Nat × Value)}
  {signs : List Sign} {g : Graph}

theorem goes_span (span : Span) (char : table.action? s .char = some (.shift 13))
    (range : table.action? s .range = some (.shift t)) (light : stateWeight t = 2)
    (next : (upcoming signs).1 ∈ [Symbol.rbracket, .char]) :
    Goes dotMatchesAny ⟨(s, v) :: stack, span.signs ++ signs, g⟩
      ⟨(t, .range span.bounds.1 span.bounds.2) :: (s, v) :: stack, signs, g⟩ := by
  cases span with
  | one letter =>
      have reduce : ∀ symbol ∈ [Symbol.rbracket, .char],
          table.action? 13 symbol = some (.reduce 12) := by decide
      refine (goes_shift letter.sign char).trans ?_
      refine goes_reduce [] 12 (reduce _ next) rfl (by decide) ?_ range ?_
      · exact yields_pure _ _
      · rw [light]
        exact (by decide : 2 < 3)
  | between first last ordered =>
      have reduce : ∀ symbol ∈ [Symbol.rbracket, .char],
          table.action? 33 symbol = some (.reduce 13) := by decide
      refine (goes_shift first.sign char).trans ?_
      refine (goes_shift (mark .dash) (show table.action? 13 .dash = some (.shift 23) from rfl)).trans ?_
      refine (goes_shift last.sign (show table.action? 23 .char = some (.shift 33) from rfl)).trans ?_
      refine goes_reduce [(23, .none), (13, .letter first)] 13 (reduce _ next) rfl (by decide) ?_ range ?_
      · show Yields (if last.literal < first.literal then _ else _) _ _ _
        rw [if_neg (Nat.not_lt.2 ordered)]
        exact yields_pure _ _
      · rw [light]
        exact (by decide : 2 < 7)

theorem goes_spans (spans : List Span) (bounds : List (Nat × Nat)) {u : Nat} {w : Value}
    (char : table.action? s .char = some (.shift 13))
    (range : table.action? s .range = some (.shift 21))
    (ranges : table.action? u .ranges = some (.shift s)) (light : stateWeight s = 1) :
    Goes dotMatchesAny
      ⟨(s, .ranges bounds) :: (u, w) :: stack, spans.flatMap Span.signs ++ mark .rbracket :: signs, g⟩
      ⟨(s, .ranges (bounds ++ spans.map Span.bounds)) :: (u, w) :: stack, mark .rbracket :: signs, g⟩ := by
  induction spans generalizing bounds with
  | nil =>
      rw [List.map_nil, List.append_nil]
      exact .refl _
  | cons span spans ih =>
      have next : (upcoming (spans.flatMap Span.signs ++ mark .rbracket :: signs)).1 ∈
          [Symbol.rbracket, .char] := by
        rcases spans with _ | ⟨_ | _, _⟩ <;> simp [upcoming, Span.signs, mark, Letter.sign]
      have reduce : ∀ symbol ∈ [Symbol.rbracket, .char],
          table.action? 21 symbol = some (.reduce 10) := by decide
      have rest := ih (bounds ++ [span.bounds])
      rw [List.append_assoc, List.singleton_append] at rest
      rw [List.flatMap_cons, List.append_assoc]
      refine ((goes_span span char range rfl next).trans ?_).trans rest
      refine goes_reduce [(s, .ranges bounds)] 10 (reduce _ next) rfl
        (by decide) ?_ ranges ?_
      · exact yields_pure _ _
      · show stateWeight s < stateWeight 21 + (stateWeight s + 0)
        rw [light]
        decide

def Position.Pushes (dotMatchesAny : Bool) (p : Position) (lo state : Nat)
    (stack : List (Nat × Value)) (signs : List Sign) (L : Language Nat) : Prop :=
  ∃ f h, Goes dotMatchesAny p ⟨(state, .fragment f) :: stack, signs, h⟩ ∧
    f.Owns h (Set.Ico lo h.size) L ∧ p.graph.Grows (Set.Ico lo p.graph.size) h

variable {entry : Nat × Value} {lo : Nat} {head : Symbol} {work : Build Fragment} {L : Language Nat}

theorem pushes_reduce (popped : List (Nat × Value)) (production : Nat)
    (action : table.action? s (upcoming signs).1 = some (.reduce production))
    (known : productions[production]? = some (head, popped.length + 1)) (other : production ≠ 0)
    (value : combine production (((s, v) :: popped).map Prod.snd).reverse =
      (do return .fragment (← work)))
    (makes : work.MakesFrom g lo L) (goto : table.action? entry.1 head = some (.shift t))
    (lighter : stateWeight t < stackWeight ((s, v) :: popped)) :
    Pushes dotMatchesAny ⟨(s, v) :: popped ++ entry :: stack, signs, g⟩ lo t (entry :: stack) signs
      L := by
  obtain ⟨f, h, yields, owns, grown⟩ := makes
  refine ⟨f, h, goes_reduce popped production action known other ?_ goto lighter, owns, grown⟩
  rw [value]
  exact yields.bind (yields_pure _ _)

theorem Position.Pushes.after {p q : Position} {state : Nat} (goes : Goes dotMatchesAny p q)
    (same : q.graph = p.graph) (pushes : q.Pushes dotMatchesAny lo state stack signs L) :
    p.Pushes dotMatchesAny lo state stack signs L := by
  obtain ⟨f, h, rest, owns, grown⟩ := pushes
  exact ⟨f, h, goes.trans rest, owns, same ▸ grown⟩

theorem makes_letter {letter : Letter} (valid : Valid [letter.sign]) (g : Graph) :
    letter.fragment.MakesFrom g g.size (single letter.has) := by
  cases letter with
  | code n =>
      have made := (Fragment.makes_literal (Nat.le_refl n) (valid n (by simp)) g).new
      rwa [Fragment.single_congr fun c => show n ≤ c ∧ c ≤ n ↔ (Letter.code n).has c from
        ⟨fun both => Nat.le_antisymm both.2 both.1, fun same => same ▸ ⟨Nat.le_refl _, Nat.le_refl _⟩⟩]
        at made
  | wildcard => exact (Fragment.makes_any g).new

theorem pushes_letter (l : Level) (letter : Letter) (valid : Valid [letter.sign])
    (char : table.action? s .char = some (.shift l.char))
    (unit : table.action? s .unit = some (.shift l.unit))
    (next : (upcoming signs).1 ∈ l.follows) :
    Pushes dotMatchesAny ⟨(s, v) :: stack, letter.sign :: signs, g⟩ g.size l.unit ((s, v) :: stack)
      signs (single letter.has) := by
  refine .after (goes_shift letter.sign char) rfl ?_
  exact pushes_reduce [] 8 (l.action_char _ next) rfl (by decide) rfl
    (makes_letter valid g) unit (by cases l <;> exact (by decide : 2 < 3))

theorem exists_covers {spans : List Span} (valid : Valid (spans.flatMap Span.signs)) :
    ∃ rs : List CodeRange, spans.map Span.bounds = rs.map CodeRange.bounds ∧
      ∀ c, CodeRange.Covers rs c ↔ ∃ s ∈ spans, s.has c := by
  obtain ⟨rs, equal⟩ := CodeRange.exists_bounds (spans.map Span.bounds) (by
    rw [List.forall_mem_map]
    intro span member
    have literal : ∀ {letter : Letter}, letter.sign ∈ span.signs → letter.literal ≤ maxCode :=
      fun sign => valid.literal_le (List.mem_flatMap_of_mem member sign)
    cases span with
    | one letter => exact ⟨Nat.le_refl _, literal (by simp [Span.signs])⟩
    | between first last ordered => exact ⟨ordered, literal (by simp [Span.signs])⟩)
  refine ⟨rs, equal, fun c => ?_⟩
  calc CodeRange.Covers rs c
      ↔ ∃ pair ∈ rs.map CodeRange.bounds, pair.1 ≤ c ∧ c ≤ pair.2 := by
        simp [CodeRange.Covers, CodeRange.contains_iff, CodeRange.bounds]
    _ ↔ ∃ s ∈ spans, s.has c := by
        rw [← equal]
        simp [Span.has]

theorem pushes_class (l : Level) (negated : Bool) (first : Span) (more : List Span)
    (valid : Valid ((first :: more).flatMap Span.signs))
    (open_ : table.action? s .lbracket = some (.shift l.lbracket))
    (unit : table.action? s .unit = some (.shift l.unit))
    (next : (upcoming signs).1 ∈ l.follows) :
    Pushes dotMatchesAny ⟨(s, v) :: stack, (Atom.ofClass negated first more).signs ++ signs, g⟩ g.size
      l.unit ((s, v) :: stack) signs ((Atom.ofClass negated first more).language true) := by
  obtain ⟨rs, bounds, covers⟩ := exists_covers valid
  have nonempty : rs ≠ [] := by
    rintro rfl
    cases bounds
  have char : table.action? (l.opened negated) .char = some (.shift 13) := by
    cases l <;> cases negated <;> rfl
  have range : table.action? (l.opened negated) .range = some (.shift 12) := by
    cases l <;> cases negated <;> rfl
  have ranges : table.action? (l.opened negated) .ranges = some (.shift (l.ranges negated)) := by
    cases l <;> cases negated <;> rfl
  have behind : (upcoming (more.flatMap Span.signs ++ mark .rbracket :: signs)).1 ∈
      [Symbol.rbracket, .char] := by
    rcases more with _ | ⟨_ | _, _⟩ <;> simp [upcoming, Span.signs, mark, Letter.sign]
  have collect : ∀ w stack, Goes dotMatchesAny ⟨(l.opened negated, w) :: stack,
      first.signs ++ (more.flatMap Span.signs ++ mark .rbracket :: signs), g⟩
      ⟨(l.ranges negated, .ranges ((first :: more).map Span.bounds)) :: (l.opened negated, w) :: stack,
        mark .rbracket :: signs, g⟩ := by
    intro w stack
    have reduce : ∀ symbol ∈ [Symbol.rbracket, .char],
        table.action? 12 symbol = some (.reduce 11) := by decide
    refine (goes_span first char range rfl behind).trans (.trans ?_ (goes_spans more [first.bounds]
      (by cases l <;> cases negated <;> rfl) (by cases l <;> cases negated <;> rfl) ranges
      (by cases l <;> cases negated <;> rfl)))
    exact goes_reduce [] 11 (reduce _ behind) rfl (by decide)
      (yields_pure _ _) ranges (by cases l <;> cases negated <;> exact (by decide : 1 < 2))
  have close : table.action? (l.ranges negated) .rbracket = some (.shift (l.rbracket negated)) := by
    cases l <;> cases negated <;> rfl
  have action := l.action_rbracket negated _ next
  rw [bounds] at collect
  rw [Atom.signs, List.flatMap_cons]
  simp only [List.append_assoc, List.cons_append, List.nil_append]
  refine .after (goes_shift (mark .lbracket) open_) rfl ?_
  cases negated with
  | false =>
      refine .after ((collect _ _).trans (goes_shift (mark .rbracket) close)) rfl ?_
      have made := (Fragment.makes_ofClass nonempty g).new
      rw [Fragment.single_congr covers] at made
      exact pushes_reduce [_, _] 6 action rfl (by decide) rfl made unit
        (by cases l <;> exact (by decide : 2 < 3))
  | true =>
      refine .after (goes_shift (mark .caret) l.shift_caret) rfl ?_
      refine .after ((collect _ _).trans (goes_shift (mark .rbracket) close)) rfl ?_
      have made := (Fragment.makes_ofNegatedClass nonempty g).new
      rw [Fragment.single_congr fun c => and_congr_right fun _ => not_congr (covers c)] at made
      exact pushes_reduce [_, _, _] 7 action rfl (by decide) rfl made unit
        (by cases l <;> exact (by decide : 2 < 4))

end LongestMatch.Pattern
