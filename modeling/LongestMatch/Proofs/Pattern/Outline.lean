import LongestMatch.Proofs.Pattern.Body

/-!
# The outline of a pattern

What may come next in a pattern depends on the last signs and on the number of open parentheses. This
outline of what has been read tells which signs go on: whatever they are, the pattern can be
completed to the signs of a body, and with few more signs.
-/

namespace LongestMatch.Pattern

/-- What the last signs of a pattern leave open. -/
inductive Mode where
  | item
  | unit
  | repeated
  | opened
  | negated
  /-- Behind a character of a class, which may begin a range. -/
  | letter
  | dash
  /-- Behind the last character of a range. -/
  | bound
  | ended
  deriving DecidableEq

namespace Mode

def begins : List Mode := [item, unit, repeated]

def closed : List Mode := [unit, repeated]

def advance : Mode → Symbol → Option Mode
  | item, .char | unit, .char | repeated, .char => some unit
  | item, .lparen | unit, .lparen | repeated, .lparen => some item
  | item, .lbracket | unit, .lbracket | repeated, .lbracket => some opened
  | unit, .rparen | repeated, .rparen => some unit
  | unit, .bar | repeated, .bar => some item
  | unit, .endMark | repeated, .endMark => some ended
  | unit, .plus | unit, .times => some repeated
  | opened, .caret => some negated
  | opened, .char | negated, .char | letter, .char | bound, .char => some letter
  | letter, .rbracket | bound, .rbracket => some unit
  | letter, .dash => some dash
  | dash, .char => some bound
  | _, _ => none

/-- How many signs make a body of what has been read, but for parentheses. -/
def missing : Mode → Nat
  | item | letter | bound => 1
  | opened | negated | dash => 2
  | unit | repeated | ended => 0

theorem missing_le (mode : Mode) : mode.missing ≤ 2 := by cases mode <;> decide

theorem missing_of_closed {mode : Mode} (closed : mode ∈ Mode.closed) :
    mode.missing = 0 ∧ mode ≠ .ended := by
  revert mode
  decide

end Mode

structure Outline where
  mode : Mode
  depth : Nat
  deriving DecidableEq

namespace Outline

def start : Outline := ⟨.item, 0⟩

def depthAfter (depth : Nat) : Symbol → Option Nat
  | .lparen => some (depth + 1)
  | .rparen => if depth = 0 then none else some (depth - 1)
  | .endMark => if depth = 0 then some 0 else none
  | _ => some depth

def advance (o : Outline) (symbol : Symbol) : Option Outline := do
  return ⟨← o.mode.advance symbol, ← depthAfter o.depth symbol⟩

def follow (o : Outline) : List Symbol → Option Outline
  | [] => some o
  | symbol :: symbols => (o.advance symbol).bind (follow · symbols)

variable {o o' : Outline} {symbol : Symbol} {kinds more : List Symbol}

theorem follow_append (o : Outline) (kinds more : List Symbol) :
    o.follow (kinds ++ more) = (o.follow kinds).bind (follow · more) := by
  induction kinds generalizing o with
  | nil => rfl
  | cons symbol kinds ih =>
      rw [List.cons_append, follow, follow]
      cases o.advance symbol with
      | none => rfl
      | some o' => exact ih o'

theorem follow_singleton (o : Outline) (symbol : Symbol) : o.follow [symbol] = o.advance symbol := by
  rw [follow]
  cases o.advance symbol <;> rfl

theorem advance_endMark {mode mode' : Mode} (step : mode.advance .endMark = some mode') :
    mode' = .ended := by
  cases mode <;> cases step <;> rfl

theorem advance_eq_some : o.advance symbol = some o' ↔
    o.mode.advance symbol = some o'.mode ∧ depthAfter o.depth symbol = some o'.depth := by
  obtain ⟨mode', depth'⟩ := o'
  rw [advance]
  cases o.mode.advance symbol <;> cases depthAfter o.depth symbol <;> simp

theorem mode_of_dash (step : o.advance .dash = some o') : o'.mode = .dash := by
  have step := (advance_eq_some.1 step).1
  generalize o.mode = mode, o'.mode = mode' at step ⊢
  cases mode <;> cases step
  rfl

theorem mode_of_bound (step : o.advance symbol = some o') (dash : o.mode = .dash) :
    o'.mode = .bound := by
  have step := (advance_eq_some.1 step).1
  rw [dash] at step
  generalize o'.mode = mode' at step ⊢
  cases symbol <;> cases step
  rfl

theorem advance_ended (ended : o'.mode = .ended) : o.advance symbol = some o' ↔
    symbol = .endMark ∧ o.mode ∈ Mode.closed ∧ o.depth = 0 ∧ o'.depth = 0 := by
  obtain ⟨mode, depth⟩ := o
  obtain ⟨mode', depth'⟩ := o'
  subst ended
  rw [advance_eq_some]
  cases mode <;> cases symbol <;> simp [Mode.advance, depthAfter, Mode.closed, eq_comm]

theorem endMark_notMem (followed : o.follow kinds = some o') (open_ : o'.mode ≠ .ended) :
    .endMark ∉ kinds := by
  induction kinds generalizing o with
  | nil => exact List.not_mem_nil
  | cons symbol kinds ih =>
      obtain ⟨next, step, rest⟩ := Option.bind_eq_some_iff.1 followed
      rw [List.mem_cons, not_or]
      refine ⟨fun last => ?_, ih rest⟩
      subst last
      have ended := advance_endMark (advance_eq_some.1 step).1
      cases kinds with
      | nil => exact open_ (Option.some.inj rest ▸ ended)
      | cons symbol kinds =>
          obtain ⟨_, here, _⟩ := Option.bind_eq_some_iff.1 rest
          have here := (advance_eq_some.1 here).1
          rw [ended] at here
          cases here

theorem endMark_mem (followed : o.follow kinds = some o') (open_ : o.mode ≠ .ended)
    (ended : o'.mode = .ended) : .endMark ∈ kinds := by
  induction kinds generalizing o with
  | nil =>
      cases followed
      exact (open_ ended).elim
  | cons symbol kinds ih =>
      obtain ⟨next, step, rest⟩ := Option.bind_eq_some_iff.1 followed
      by_cases here : next.mode = .ended
      · rw [((advance_ended here).1 step).1]
        exact List.mem_cons_self
      · exact List.mem_cons_of_mem _ (ih rest here)

end Outline

inductive Plain : Sign → Prop
  | letter {letter : Letter} : letter.literal ≤ maxCode → Plain letter.sign
  | symbol {symbol : Symbol} : symbol ≠ .char → Plain (mark symbol)

/-- The signs are those of whole items and of `depth` open parentheses; an item may follow. -/
inductive Begun : (depth : Nat) → List Sign → Prop
  | start : Begun 0 []
  | item {depth : Nat} {signs : List Sign} (a : Atom) (times : Repeat) (joint : Joint) :
      Begun depth signs → Begun depth (signs ++ (a.signs ++ times.signs ++ joint.signs))
  | group {depth : Nat} {signs : List Sign} :
      Begun depth signs → Begun (depth + 1) (signs ++ [mark .lparen])

def classStart (negated : Bool) : List Sign := mark .lbracket :: if negated then [mark .caret] else []

/-- The signs that the outline stands for: those of whole items and open parentheses, then the part
of an item. -/
inductive Drawn : Outline → List Sign → Prop
  | item {depth : Nat} {signs : List Sign} : Begun depth signs → Drawn ⟨.item, depth⟩ signs
  | unit {depth : Nat} {signs : List Sign} (a : Atom) :
      Begun depth signs → Drawn ⟨.unit, depth⟩ (signs ++ a.signs)
  | repeated {depth : Nat} {signs : List Sign} (a : Atom) (times : Repeat) :
      Begun depth signs → Drawn ⟨.repeated, depth⟩ (signs ++ (a.signs ++ times.signs))
  | opened {depth : Nat} {signs : List Sign} :
      Begun depth signs → Drawn ⟨.opened, depth⟩ (signs ++ classStart false)
  | negated {depth : Nat} {signs : List Sign} :
      Begun depth signs → Drawn ⟨.negated, depth⟩ (signs ++ classStart true)
  | letter {depth : Nat} {signs : List Sign} (negated : Bool) (spans : List Span) {l : Letter} :
      l.literal ≤ maxCode → Begun depth signs →
      Drawn ⟨.letter, depth⟩ (signs ++ (classStart negated ++ spans.flatMap Span.signs ++ [l.sign]))
  | dash {depth : Nat} {signs : List Sign} (negated : Bool) (spans : List Span) {l : Letter} :
      l.literal ≤ maxCode → Begun depth signs →
      Drawn ⟨.dash, depth⟩
        (signs ++ (classStart negated ++ spans.flatMap Span.signs ++ [l.sign, mark .dash]))
  | bound {depth : Nat} {signs : List Sign} (negated : Bool) (spans : List Span)
      (first last : Letter) (ordered : first.literal ≤ last.literal) : Begun depth signs →
      Drawn ⟨.bound, depth⟩ (signs ++
        (classStart negated ++ spans.flatMap Span.signs ++ (Span.between first last ordered).signs))

def Ordered (signs : List Sign) : Prop :=
  ∀ front first last, front ++ [first.sign, mark .dash, last.sign] <+: signs →
    Letter.literal first ≤ Letter.literal last

variable {o o' : Outline} {signs more : List Sign} {sign : Sign} {depth : Nat}

theorem Begun.depth_le (begun : Begun depth signs) : depth ≤ signs.length := by
  induction begun with
  | start => exact Nat.le_refl 0
  | item _ _ _ _ ih =>
      rw [List.length_append]
      omega
  | group _ ih =>
      rw [List.length_append, List.length_singleton]
      omega

theorem Begun.once (begun : Begun depth signs) (a : Atom) : Begun depth (signs ++ a.signs) := by
  simpa [Repeat.signs, Joint.signs] using begun.item a .once .next

theorem Begun.exists_group (begun : Begun (depth + 1) signs) (b : Body) :
    ∃ outside inside, Begun depth outside ∧
      signs ++ b.signs = outside ++ mark .lparen :: Body.signs inside := by
  generalize nested : depth + 1 = d at begun
  induction begun generalizing b with
  | start => cases nested
  | item a times joint _ ih =>
      obtain ⟨outside, inside, begun, equal⟩ := ih (.more a times joint b) nested
      refine ⟨outside, inside, begun, ?_⟩
      rw [← equal, Body.signs]
      simp only [List.append_assoc]
  | group begun _ =>
      cases nested
      exact ⟨_, b, begun, by simp⟩

theorem Begun.exists_whole (begun : Begun 0 signs) (b : Body) : ∃ whole : Body,
    signs ++ b.signs = whole.signs := by
  generalize flat : 0 = d at begun
  induction begun generalizing b with
  | start => exact ⟨b, rfl⟩
  | item a times joint _ ih =>
      obtain ⟨whole, equal⟩ := ih (.more a times joint b) flat
      refine ⟨whole, ?_⟩
      rw [← equal, Body.signs]
      simp only [List.append_assoc]
  | group _ _ => cases flat

theorem Begun.exists_closed (begun : Begun depth signs) (b : Body) : ∃ whole : Body,
    signs ++ b.signs ++ List.replicate depth (mark .rparen) = whole.signs := by
  induction depth generalizing signs b with
  | zero => simpa using begun.exists_whole b
  | succ depth ih =>
      obtain ⟨outside, inside, begun, equal⟩ := begun.exists_group b
      obtain ⟨whole, closed⟩ := ih begun (.last (.group inside) .once)
      refine ⟨whole, ?_⟩
      rw [← closed, equal, Body.signs, Atom.signs, Repeat.signs, List.replicate_succ]
      simp

theorem Drawn.begun {mode : Mode} (drawn : Drawn ⟨mode, depth⟩ signs) (begins : mode ∈ Mode.begins) :
    Begun depth signs := by
  cases drawn with
  | item begun => exact begun
  | unit a begun => exact begun.once a
  | repeated a times begun => simpa [Joint.signs] using begun.item a times .next
  | opened _ | negated _ | letter _ _ _ _ | dash _ _ _ _ | bound _ _ _ _ _ _ =>
      simp [Mode.begins] at begins

theorem exists_class (negated : Bool) (spans : List Span) (last : Span) : ∃ a : Atom,
    a.signs = classStart negated ++ spans.flatMap Span.signs ++ last.signs ++ [mark .rbracket] := by
  obtain ⟨first, more, equal⟩ : ∃ first more, first :: more = spans ++ [last] := by
    cases spans with
    | nil => exact ⟨last, [], rfl⟩
    | cons first spans => exact ⟨first, spans ++ [last], rfl⟩
  refine ⟨.ofClass negated first more, ?_⟩
  rw [Atom.signs, equal]
  simp [classStart]

theorem Drawn.next_letter (negated : Bool) (spans : List Span) (last : Span) {l : Letter}
    (bounded : l.literal ≤ maxCode) (begun : Begun depth signs) : Drawn ⟨.letter, depth⟩
      (signs ++ (classStart negated ++ spans.flatMap Span.signs ++ last.signs) ++ [l.sign]) := by
  have drawn := Drawn.letter negated (spans ++ [last]) bounded begun
  rw [List.flatMap_append] at drawn
  simpa using drawn

theorem Drawn.char {mode : Mode} (drawn : Drawn ⟨mode, depth⟩ signs) {l : Letter}
    (bounded : l.literal ≤ maxCode) (ordered : Ordered (signs ++ [l.sign])) {mode' : Mode}
    (step : mode.advance .char = some mode') : Drawn ⟨mode', depth⟩ (signs ++ [l.sign]) := by
  have first : ∀ {signs}, Begun depth signs → Drawn ⟨.unit, depth⟩ (signs ++ [l.sign]) := by
    intro signs begun
    simpa [Atom.signs] using Drawn.unit (.letter l) begun
  cases mode with
  | item | unit | repeated =>
      cases step
      exact first (drawn.begun (by simp [Mode.begins]))
  | opened =>
      cases step
      cases drawn with
      | opened begun => simpa [classStart] using Drawn.letter false [] bounded begun
  | negated =>
      cases step
      cases drawn with
      | negated begun => simpa [classStart] using Drawn.letter true [] bounded begun
  | letter =>
      cases step
      cases drawn with
      | @letter _ _ negated spans last _ begun =>
          exact Drawn.next_letter negated spans (.one last) bounded begun
  | dash =>
      cases step
      cases drawn with
      | @dash _ front negated spans last _ begun =>
          have order : last.literal ≤ l.literal := ordered
            (front ++ (classStart negated ++ spans.flatMap Span.signs)) last l (by simp)
          simpa [Span.signs] using Drawn.bound negated spans last l order begun
  | bound =>
      cases step
      cases drawn with
      | bound negated spans low high order begun =>
          exact Drawn.next_letter negated spans (.between low high order) bounded begun
  | ended => cases step

theorem Begun.close (begun : Begun (depth + 1) signs) (a : Atom) (times : Repeat) :
    Drawn ⟨.unit, depth⟩ (signs ++ (a.signs ++ times.signs) ++ [mark .rparen]) := by
  obtain ⟨outside, inside, begun, equal⟩ := begun.exists_group (.last a times)
  rw [Body.signs] at equal
  rw [equal]
  simpa [Atom.signs] using Drawn.unit (.group inside) begun

theorem Begun.bar (begun : Begun depth signs) (a : Atom) (times : Repeat) :
    Drawn ⟨.item, depth⟩ (signs ++ (a.signs ++ times.signs) ++ [mark .bar]) := by
  simpa [Joint.signs] using Drawn.item (begun.item a times .bar)

theorem Drawn.mark {symbol : Symbol} (drawn : Drawn o signs) (step : o.advance symbol = some o')
    (other : symbol ≠ .char) (open_ : symbol ≠ .endMark) : Drawn o' (signs ++ [Pattern.mark symbol]) := by
  obtain ⟨mode', depth'⟩ := o'
  obtain ⟨step, nested⟩ := Outline.advance_eq_some.1 step
  have deeper : ∀ {depth}, Outline.depthAfter depth .rparen = some depth' → depth = depth' + 1 := by
    intro depth nested
    rw [Outline.depthAfter] at nested
    split at nested
    · cases nested
    · cases nested
      omega
  cases drawn with
  | item begun =>
      cases symbol <;> cases step <;> cases nested
      · exact (other rfl).elim
      · exact .item begun.group
      · exact .opened begun
  | unit a begun =>
      cases symbol <;> cases step
      · exact (open_ rfl).elim
      · exact (other rfl).elim
      · cases nested
        exact .item (begun.once a).group
      · obtain rfl := deeper nested
        simpa [Repeat.signs] using begun.close a .once
      · cases nested
        exact .opened (begun.once a)
      · cases nested
        simpa [Repeat.signs] using Drawn.repeated a .plus begun
      · cases nested
        simpa [Repeat.signs] using Drawn.repeated a .star begun
      · cases nested
        simpa [Repeat.signs] using begun.bar a .once
  | repeated a times begun =>
      have next := begun.item a times .next
      rw [Joint.signs, List.append_nil] at next
      cases symbol <;> cases step
      · exact (open_ rfl).elim
      · exact (other rfl).elim
      · cases nested
        exact .item next.group
      · obtain rfl := deeper nested
        exact begun.close a times
      · cases nested
        exact .opened next
      · cases nested
        exact begun.bar a times
  | opened begun =>
      cases symbol <;> cases step <;> cases nested
      · exact (other rfl).elim
      · simpa [classStart] using Drawn.negated begun
  | negated begun =>
      cases symbol <;> cases step
      exact (other rfl).elim
  | @letter _ _ negated spans l bounded begun =>
      cases symbol <;> cases step <;> cases nested
      · exact (other rfl).elim
      · obtain ⟨a, equal⟩ := exists_class negated spans (.one l)
        have drawn := Drawn.unit a begun
        rw [equal] at drawn
        simpa [Span.signs] using drawn
      · simpa using Drawn.dash negated spans bounded begun
  | dash negated spans bounded begun =>
      cases symbol <;> cases step
      exact (other rfl).elim
  | bound negated spans first last order begun =>
      cases symbol <;> cases step <;> cases nested
      · exact (other rfl).elim
      · obtain ⟨a, equal⟩ := exists_class negated spans (.between first last order)
        have drawn := Drawn.unit a begun
        rw [equal] at drawn
        simpa using drawn

theorem Ordered.of_prefix (ordered : Ordered more) (front : signs <+: more) : Ordered signs :=
  fun _ first last range => ordered _ first last (range.trans front)

theorem Drawn.follow (drawn : Drawn o signs) (plain : ∀ sign ∈ more, Plain sign)
    (ordered : Ordered (signs ++ more)) (followed : o.follow (more.map Prod.fst) = some o')
    (open_ : o'.mode ≠ .ended) : Drawn o' (signs ++ more) := by
  induction more generalizing o signs with
  | nil =>
      cases followed
      rwa [List.append_nil]
  | cons sign more ih =>
      have noEnd := Outline.endMark_notMem followed open_
      obtain ⟨next, step, rest⟩ := Option.bind_eq_some_iff.1 followed
      have apart : signs ++ sign :: more = signs ++ [sign] ++ more := by simp
      have drawn' : Drawn next (signs ++ [sign]) := by
        have ordered' : Ordered (signs ++ [sign]) :=
          ordered.of_prefix (apart ▸ List.prefix_append _ _)
        cases plain sign List.mem_cons_self with
        | letter bounded =>
            obtain ⟨mode, depth⟩ := o
            obtain ⟨mode', depth'⟩ := next
            obtain ⟨step, nested⟩ := Outline.advance_eq_some.1 step
            cases nested
            exact drawn.char bounded ordered' step
        | symbol other => exact drawn.mark step other fun last => noEnd (last ▸ List.mem_cons_self)
      rw [apart] at ordered ⊢
      exact ih drawn' (fun sign member => plain sign (List.mem_cons_of_mem _ member)) ordered rest

theorem Drawn.depth_le (drawn : Drawn o signs) : o.depth ≤ signs.length := by
  cases drawn with
  | item begun => exact begun.depth_le
  | unit _ begun | repeated _ _ begun | opened begun | negated begun | letter _ _ _ begun
    | dash _ _ _ begun | bound _ _ _ _ _ begun =>
      rw [List.length_append]
      exact Nat.le_trans begun.depth_le (Nat.le_add_right _ _)

def lastLetter : Letter := .code maxCode

def closers : List Sign := [lastLetter.sign, mark .rbracket, mark .rparen]

structure Completes (signs rest : List Sign) (length : Nat) : Prop where
  whole : ∃ b : Body, signs ++ rest = b.signs
  length_le : rest.length ≤ length
  few : ∀ sign ∈ rest, sign ∈ closers

theorem Begun.completes (begun : Begun depth signs) (a : Atom) (times : Repeat)
    {part more : List Sign} (equal : part ++ more = a.signs ++ times.signs)
    (few : ∀ sign ∈ more, sign ∈ closers) :
    Completes (signs ++ part) (more ++ List.replicate depth (mark .rparen)) (more.length + depth) where
  whole := by
    obtain ⟨whole, closed⟩ := begun.exists_closed (.last a times)
    refine ⟨whole, ?_⟩
    rw [← closed, Body.signs, ← equal]
    simp only [List.append_assoc]
  length_le := by simp
  few sign member := by
    rcases List.mem_append.1 member with member | member
    · exact few sign member
    · rw [List.eq_of_mem_replicate member]
      simp [closers]

theorem Begun.completes_class (begun : Begun depth signs) (negated : Bool) (spans : List Span)
    (last : Span) {part more : List Sign}
    (equal : part ++ more =
      classStart negated ++ spans.flatMap Span.signs ++ last.signs ++ [mark .rbracket])
    (few : ∀ sign ∈ more, sign ∈ closers) :
    Completes (signs ++ part) (more ++ List.replicate depth (mark .rparen)) (more.length + depth) := by
  obtain ⟨a, whole⟩ := exists_class negated spans last
  refine begun.completes a .once ?_ few
  rw [equal, whole, Repeat.signs, List.append_nil]

theorem Drawn.exists_completes (drawn : Drawn o signs) :
    ∃ rest, Completes signs rest (o.mode.missing + o.depth) := by
  have bracket : ∀ sign ∈ [Pattern.mark .rbracket], sign ∈ closers := by simp [closers]
  have span : ∀ sign ∈ [lastLetter.sign, Pattern.mark .rbracket], sign ∈ closers := by simp [closers]
  cases drawn with
  | item begun =>
      have letter : ∀ sign ∈ [lastLetter.sign], sign ∈ closers := by simp [closers]
      have completes := begun.completes (.letter lastLetter) .once (List.nil_append _) letter
      rw [List.append_nil] at completes
      exact ⟨_, completes⟩
  | unit a begun => exact ⟨_, begun.completes a .once rfl (List.forall_mem_nil _)⟩
  | repeated a times begun =>
      exact ⟨_, begun.completes a times (List.append_nil _) (List.forall_mem_nil _)⟩
  | opened begun =>
      refine ⟨_, begun.completes_class false [] (.one lastLetter) ?_ span⟩
      rfl
  | negated begun =>
      refine ⟨_, begun.completes_class true [] (.one lastLetter) ?_ span⟩
      rfl
  | @letter _ _ negated spans l _ begun =>
      exact ⟨_, begun.completes_class negated spans (.one l) rfl bracket⟩
  | @dash _ _ negated spans l bounded begun =>
      refine ⟨_, begun.completes_class negated spans (.between l lastLetter bounded) ?_ span⟩
      simp [Span.signs]
  | bound negated spans first last order begun =>
      exact ⟨_, begun.completes_class negated spans (.between first last order) rfl bracket⟩

theorem Drawn.exists_body (drawn : Drawn o signs) (closed : o.mode ∈ Mode.closed) (flat : o.depth = 0) :
    ∃ b : Body, signs = b.signs := by
  obtain ⟨rest, ⟨b, whole⟩, length, _⟩ := drawn.exists_completes
  rw [(Mode.missing_of_closed closed).1, flat, Nat.le_zero, List.length_eq_zero_iff] at length
  rw [length, List.append_nil] at whole
  exact ⟨b, whole⟩

end LongestMatch.Pattern
