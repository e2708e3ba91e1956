import Mathlib.Computability.ContextFreeGrammar
import LongestMatch.Proofs.Pattern.Outline
import LongestMatch.Proofs.Pattern.Paths

namespace LongestMatch

abbrev FormSymbol := Symbol Pattern.Symbol Pattern.Symbol

namespace Pattern

open ContextFreeGrammar

def form (symbols : List Symbol) : List FormSymbol :=
  symbols.map fun symbol => if symbol ∈ nonterminals then .nonterminal symbol else .terminal symbol

/-- The productions below the one that accepts, each with its head and its right-hand side. -/
def documented : List (Symbol × List Symbol) :=
  open Pattern.Symbol in [
    (exp, [unit]),
    (exp, [exp, exp]),
    (exp, [exp, bar, exp]),
    (exp, [unit, plus]),
    (exp, [unit, times]),
    (unit, [lbracket, ranges, rbracket]),
    (unit, [lbracket, caret, ranges, rbracket]),
    (unit, [char]),
    (unit, [lparen, exp, rparen]),
    (ranges, [ranges, range]),
    (ranges, [range]),
    (range, [char]),
    (range, [char, dash, char])]

theorem documented_eq : documented =
    (productions.zipIdx.drop 1).map fun (production, p) => (production.1, rightHand p) := by decide

def rule (production : Symbol × List Symbol) : ContextFreeRule Symbol Symbol :=
  ⟨production.1, form production.2⟩

def rules : Finset (ContextFreeRule Symbol Symbol) := (documented.map rule).toFinset

def grammar : ContextFreeGrammar Symbol where
  NT := Symbol
  initial := .exp
  rules := rules

theorem mem_rules {r : ContextFreeRule Symbol Symbol} :
    r ∈ rules ↔ ∃ production ∈ documented, rule production = r := by
  rw [rules, List.mem_toFinset, List.mem_map]

/-- A sentence of the grammar with the end mark begins with the kinds. -/
def Viable (kinds : List Symbol) : Prop :=
  ∃ sentence ∈ grammar.language, kinds <+: sentence ++ [.endMark]

namespace Outline

def before : Symbol → List Mode
  | .exp | .unit => Mode.begins
  | _ => [.opened, .negated, .letter, .bound]

def after : Symbol → List Mode
  | .exp => Mode.closed
  | .unit => [.unit]
  | _ => [.letter, .bound]

def Leads (goal : Outline → Prop) : List FormSymbol → Outline → Prop
  | [], o => goal o
  | .terminal symbol :: rest, o => ∃ o', o.advance symbol = some o' ∧ Leads goal rest o'
  | .nonterminal symbol :: rest, o =>
    o.mode ∈ before symbol ∧ ∀ mode ∈ after symbol, Leads goal rest ⟨mode, o.depth⟩

variable {goal : Outline → Prop} {o : Outline} {u v : List FormSymbol}

theorem leads_terminal (goal : Outline → Prop) (o : Outline) (kinds : List Symbol) :
    Leads goal (kinds.map .terminal) o ↔ ∃ o', o.follow kinds = some o' ∧ goal o' := by
  induction kinds generalizing o with
  | nil => simp [Leads, follow]
  | cons symbol kinds ih =>
      simp only [List.map_cons, Leads, follow, ih, Option.bind_eq_some_iff]
      constructor
      · rintro ⟨next, step, o', rest, reached⟩
        exact ⟨o', ⟨next, step, rest⟩, reached⟩
      · rintro ⟨o', ⟨next, step, rest⟩, reached⟩
        exact ⟨next, step, o', rest, reached⟩

/-- Whatever the symbols derive ends in one of the modes, with `own` parentheses open before. -/
def endsIn (modes : List Mode) : List Symbol → (own : Nat) → Mode → Bool
  | [], own, mode => own = 0 && mode ∈ modes
  | symbol :: symbols, own, mode =>
    if symbol ∈ nonterminals then
      mode ∈ before symbol && (after symbol).all (endsIn modes symbols own)
    else
      symbol ≠ .endMark && match mode.advance symbol, depthAfter own symbol with
        | some next, some own => endsIn modes symbols own next
        | _, _ => false

theorem depthAfter_add {own own' : Nat} {symbol : Symbol} (depth : Nat) (open_ : symbol ≠ .endMark)
    (nested : depthAfter own symbol = some own') :
    depthAfter (depth + own) symbol = some (depth + own') := by
  cases symbol <;> simp only [depthAfter] at nested ⊢ <;> grind

theorem leads_of_endsIn {modes : List Mode} {symbols : List Symbol} {own depth : Nat} {mode : Mode}
    {rest : List FormSymbol} (ends : endsIn modes symbols own mode = true)
    (leads : ∀ mode ∈ modes, Leads goal rest ⟨mode, depth⟩) :
    Leads goal (form symbols ++ rest) ⟨mode, depth + own⟩ := by
  induction symbols generalizing own mode with
  | nil =>
      simp only [endsIn, Bool.and_eq_true, decide_eq_true_eq] at ends
      rw [ends.1]
      exact leads mode ends.2
  | cons symbol symbols ih =>
      rw [endsIn] at ends
      rw [form, List.map_cons, ← form, List.cons_append]
      by_cases inner : symbol ∈ nonterminals
      · rw [if_pos inner] at ends ⊢
        simp only [Bool.and_eq_true, decide_eq_true_eq, List.all_eq_true] at ends
        exact ⟨ends.1, fun mode member => ih (ends.2 mode member)⟩
      · rw [if_neg inner, Bool.and_eq_true, decide_eq_true_eq] at ends
        rw [if_neg inner]
        obtain ⟨open_, ends⟩ := ends
        split at ends
        · rename_i next own' step nested
          exact ⟨_, advance_eq_some.2 ⟨step, depthAfter_add depth open_ nested⟩, ih ends⟩
        · cases ends

theorem Leads.output {production : Symbol × List Symbol} (member : production ∈ documented)
    {rest : List FormSymbol} (leads : Leads goal (.nonterminal production.1 :: rest) o) :
    Leads goal (form production.2 ++ rest) o := by
  have ends : ∀ production ∈ documented, ∀ mode ∈ before production.1,
      endsIn (after production.1) production.2 0 mode = true := by decide
  exact leads_of_endsIn (ends production member o.mode leads.1) leads.2

theorem Leads.rewrites {production : Symbol × List Symbol} (member : production ∈ documented)
    (rewrites : (rule production).Rewrites u v)
    (leads : Leads goal u o) : Leads goal v o := by
  -- What stands before the nonterminal is passed by, up to the mode in which it begins.
  induction rewrites generalizing o with
  | head rest => exact leads.output member
  | cons symbol _ ih =>
      cases symbol with
      | terminal symbol =>
          obtain ⟨o', step, leads⟩ := leads
          exact ⟨o', step, ih leads⟩
      | nonterminal symbol => exact ⟨leads.1, fun mode ends => ih (leads.2 mode ends)⟩

theorem Leads.derives (derives : grammar.Derives u v) (leads : Leads goal u o) : Leads goal v o := by
  induction derives with
  | refl => exact leads
  | tail _ produces ih =>
      obtain ⟨r, member, rewrites⟩ := produces
      obtain ⟨production, documented, rfl⟩ := mem_rules.1 member
      exact ih.rewrites documented rewrites

end Outline

def kinds (signs : List Sign) : List Symbol := signs.map Prod.fst

@[simp]
theorem kinds_append (signs more : List Sign) : kinds (signs ++ more) = kinds signs ++ kinds more :=
  List.map_append

def DerivesFrom (symbol : Symbol) (signs : List Sign) : Prop :=
  grammar.Derives [.nonterminal symbol] ((kinds signs).map .terminal)

theorem derives_append {u u' v v' : List FormSymbol} (first : grammar.Derives u u')
    (second : grammar.Derives v v') : grammar.Derives (u ++ v) (u' ++ v') :=
  (first.append_right v).trans (second.append_left u')

inductive Spans : List Symbol → List Sign → Prop
  | nil : Spans [] []
  | terminal {symbol : Symbol} {symbols : List Symbol} {sign : Sign} {signs : List Sign} :
      symbol ∉ nonterminals → sign.1 = symbol → Spans symbols signs →
      Spans (symbol :: symbols) (sign :: signs)
  | nonterminal {symbol : Symbol} {symbols : List Symbol} {signs more : List Sign} :
      symbol ∈ nonterminals → DerivesFrom symbol signs → Spans symbols more →
      Spans (symbol :: symbols) (signs ++ more)

theorem Spans.derives {symbols : List Symbol} {signs : List Sign} (spans : Spans symbols signs) :
    grammar.Derives (form symbols) ((kinds signs).map .terminal) := by
  induction spans with
  | nil => exact .refl _
  | @terminal symbol symbols sign signs other same _ ih =>
      subst same
      have head : form (sign.1 :: symbols) = .terminal sign.1 :: form symbols := by
        simp [form, other]
      rw [head]
      exact ih.append_left [.terminal sign.1]
  | @nonterminal symbol symbols signs more inner first _ ih =>
      have head : form (symbol :: symbols) = [.nonterminal symbol] ++ form symbols := by
        simp [form, inner]
      rw [head, kinds_append, List.map_append]
      exact derives_append first ih

theorem Spans.derivesFrom {head : Symbol} {body : List Symbol} {signs : List Sign}
    (spans : Spans body signs) (member : (head, body) ∈ documented) : DerivesFrom head signs :=
  ContextFreeGrammar.Produces.trans_derives
    ⟨rule (head, body), mem_rules.2 ⟨_, member, rfl⟩, ContextFreeRule.Rewrites.input_output⟩
    spans.derives

theorem DerivesFrom.spans {symbol : Symbol} {signs : List Sign} (derives : DerivesFrom symbol signs)
    (inner : symbol ∈ nonterminals) : Spans [symbol] signs := by
  have spans := Spans.nonterminal inner derives .nil
  rwa [List.append_nil] at spans

theorem Spans.marks {symbol : Symbol} {symbols : List Symbol} {signs : List Sign}
    (spans : Spans symbols signs) (other : symbol ∉ nonterminals) :
    Spans (symbol :: symbols) (mark symbol :: signs) := .terminal other rfl spans

theorem Span.derives : (span : Span) → DerivesFrom .range span.signs
  | .one letter => by
    have spans : Spans [.char] [letter.sign] := .terminal (by decide) rfl .nil
    exact spans.derivesFrom (by decide)
  | .between first last _ => by
    have spans : Spans [.char, .dash, .char] [first.sign, mark .dash, last.sign] :=
      .terminal (by decide) rfl (.terminal (by decide) rfl (.terminal (by decide) rfl .nil))
    exact spans.derivesFrom (by decide)

theorem Span.flatMap_derives (first : Span) (more : List Span) :
    DerivesFrom .ranges ((first :: more).flatMap Span.signs) := by
  -- The grammar puts a range behind others, so that the induction is on the last one.
  induction more using List.reverseRecOn with
  | nil =>
      have spans : Spans [.range] ([first].flatMap Span.signs) := by
        simpa using first.derives.spans (by decide)
      exact spans.derivesFrom (by decide)
  | append_singleton more last ih =>
      have spans := Spans.nonterminal (by decide) ih (last.derives.spans (by decide))
      rw [← List.cons_append, List.flatMap_append, List.flatMap_singleton]
      exact spans.derivesFrom (by decide)

theorem DerivesFrom.item {a : Atom} (derives : DerivesFrom .unit a.signs) (times : Repeat) :
    DerivesFrom .exp (a.signs ++ times.signs) := by
  have unit : ∀ {symbols signs}, Spans symbols signs → Spans (.unit :: symbols) (a.signs ++ signs) :=
    .nonterminal (by decide) derives
  cases times with
  | once => exact (unit .nil).derivesFrom (by decide)
  | plus => exact (unit (Spans.nil.marks (by decide))).derivesFrom (by decide)
  | star => exact (unit (Spans.nil.marks (by decide))).derivesFrom (by decide)

mutual

theorem Atom.derives : (a : Atom) → DerivesFrom .unit a.signs
  | .letter letter => by
    have spans : Spans [.char] [letter.sign] := .terminal (by decide) rfl .nil
    rw [Atom.signs]
    exact spans.derivesFrom (by decide)
  | .ofClass negated first more => by
    have spans : Spans [.ranges, .rbracket]
        ((first :: more).flatMap Span.signs ++ [mark .rbracket]) :=
      .nonterminal (by decide) (first.flatMap_derives more) (Spans.nil.marks (by decide))
    rw [Atom.signs, List.append_assoc]
    cases negated with
    | false => exact (spans.marks (by decide)).derivesFrom (by decide)
    | true => exact ((spans.marks (by decide)).marks (by decide)).derivesFrom (by decide)
  | .group body => by
    have spans : Spans [.exp, .rparen] (body.signs ++ [mark .rparen]) :=
      .nonterminal (by decide) body.derives (Spans.nil.marks (by decide))
    rw [Atom.signs]
    exact (spans.marks (by decide)).derivesFrom (by decide)

theorem Body.derives : (b : Body) → DerivesFrom .exp b.signs
  | .last atom times => by
    rw [Body.signs]
    exact atom.derives.item times
  | .more atom times joint rest => by
    have item := atom.derives.item times
    have spans := rest.derives.spans (by decide)
    rw [Body.signs, List.append_assoc]
    cases joint with
    | next => exact (Spans.nonterminal (by decide) item spans).derivesFrom (by decide)
    | bar => exact (Spans.nonterminal (by decide) item (spans.marks (by decide))).derivesFrom (by decide)

end

variable {symbols : List Symbol} {o : Outline}

theorem DerivesFrom.follow {symbol : Symbol} {signs : List Sign} (derives : DerivesFrom symbol signs)
    (begins : o.mode ∈ Outline.before symbol) : ∃ o', o.follow (kinds signs) = some o' ∧
      o'.mode ∈ Outline.after symbol ∧ o'.depth = o.depth := by
  have goal : Outline.Leads (fun o' => o'.mode ∈ Outline.after symbol ∧ o'.depth = o.depth)
      [.nonterminal symbol] o := ⟨begins, fun mode ends => ⟨ends, rfl⟩⟩
  exact (Outline.leads_terminal _ _ _).1 (goal.derives derives)

def plainSign (symbol : Symbol) : Sign := if symbol = .char then (Letter.code 0).sign else mark symbol

theorem plain_plainSign (symbol : Symbol) : Plain (plainSign symbol) := by
  rw [plainSign]
  split
  · exact .letter (Nat.zero_le _)
  · exact .symbol (by assumption)

theorem kinds_plainSign (symbols : List Symbol) : kinds (symbols.map plainSign) = symbols := by
  have one : ∀ symbol, (plainSign symbol).1 = symbol := by
    intro symbol
    rw [plainSign]
    split
    · rename_i char
      exact char.symm
    · rfl
  rw [kinds, List.map_map, show Prod.fst ∘ plainSign = id from funext one, List.map_id]

theorem ordered_plainSign (symbols : List Symbol) : Ordered (symbols.map plainSign) := by
  have zero : ∀ {l : Letter}, l.sign ∈ symbols.map plainSign → l.literal = 0 := by
    intro l member
    obtain ⟨symbol, _, equal⟩ := List.mem_map.1 member
    rw [plainSign] at equal
    split at equal
    · cases l <;> cases equal
      rfl
    · cases equal
  intro front first last range
  have members := range.subset
  rw [zero (members (by simp)), zero (members (by simp))]

theorem exists_sentence (followed : Outline.start.follow symbols = some o) (open_ : o.mode ≠ .ended) :
    ∃ rest, symbols ++ rest ∈ grammar.language ∧ rest.length ≤ o.mode.missing + o.depth := by
  have drawn : Drawn o (symbols.map plainSign) := by
    refine (Drawn.item .start).follow ?_ (ordered_plainSign symbols) ?_ open_
    · intro sign member
      obtain ⟨symbol, _, rfl⟩ := List.mem_map.1 member
      exact plain_plainSign symbol
    · rwa [← kinds, kinds_plainSign]
  obtain ⟨rest, ⟨b, whole⟩, length, _⟩ := drawn.exists_completes
  refine ⟨kinds rest, ?_, by simpa [kinds] using length⟩
  have derives := b.derives
  rw [← whole, DerivesFrom, kinds_append, kinds_plainSign] at derives
  exact derives

theorem mem_language_iff : symbols ∈ grammar.language ↔
    ∃ o, Outline.start.follow symbols = some o ∧ o.mode ∈ Mode.closed ∧ o.depth = 0 := by
  constructor
  · intro sentence
    rw [← kinds_plainSign symbols] at sentence ⊢
    have derives : DerivesFrom .exp (symbols.map plainSign) := sentence
    exact derives.follow (o := .start) (by decide)
  · rintro ⟨o, followed, closed, flat⟩
    obtain ⟨complete, open_⟩ := Mode.missing_of_closed closed
    obtain ⟨rest, sentence, length⟩ := exists_sentence followed open_
    rw [complete, flat, Nat.le_zero, List.length_eq_zero_iff] at length
    rwa [length, List.append_nil] at sentence

theorem viable_iff : Viable symbols ↔ (Outline.start.follow symbols).isSome := by
  constructor
  · rintro ⟨sentence, member, rest, equal⟩
    obtain ⟨o, followed, closed, flat⟩ := mem_language_iff.1 member
    have step : o.advance .endMark = some ⟨.ended, 0⟩ :=
      (Outline.advance_ended rfl).2 ⟨rfl, closed, flat, rfl⟩
    have ended : (Outline.start.follow (symbols ++ rest)).isSome := by
      rw [equal, Outline.follow_append, followed]
      show (o.follow [.endMark]).isSome
      rw [Outline.follow_singleton, step]
      rfl
    rw [Outline.follow_append] at ended
    exact Option.isSome_of_isSome_bind ended
  · intro followed
    obtain ⟨o, followed⟩ := Option.isSome_iff_exists.1 followed
    by_cases ended : o.mode = .ended
    · rcases List.eq_nil_or_concat symbols with rfl | ⟨front, last, rfl⟩
      · cases followed
        cases ended
      · rw [List.concat_eq_append, Outline.follow_append] at followed
        obtain ⟨before, front_, step⟩ := Option.bind_eq_some_iff.1 followed
        rw [Outline.follow_singleton] at step
        obtain ⟨rfl, closed, flat, _⟩ := (Outline.advance_ended ended).1 step
        exact ⟨front, mem_language_iff.2 ⟨before, front_, closed, flat⟩, by simp⟩
    · obtain ⟨rest, sentence, _⟩ := exists_sentence followed ended
      exact ⟨_, sentence, (List.prefix_append _ _).trans (List.prefix_append _ _)⟩

theorem viable_endMark_iff : Viable (symbols ++ [.endMark]) ↔ symbols ∈ grammar.language := by
  constructor
  · intro viable
    obtain ⟨o', followed⟩ := Option.isSome_iff_exists.1 (viable_iff.1 viable)
    rw [Outline.follow_append] at followed
    obtain ⟨o, followed, step⟩ := Option.bind_eq_some_iff.1 followed
    rw [Outline.follow_singleton] at step
    have ended := Outline.advance_endMark (Outline.advance_eq_some.1 step).1
    obtain ⟨_, closed, flat, _⟩ := (Outline.advance_ended ended).1 step
    exact mem_language_iff.2 ⟨o, followed, closed, flat⟩
  · exact fun sentence => ⟨symbols, sentence, List.prefix_rfl⟩

end Pattern

end LongestMatch
