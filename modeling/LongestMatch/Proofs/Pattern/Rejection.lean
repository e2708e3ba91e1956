import LongestMatch.Proofs.Pattern.Poised

namespace LongestMatch.Pattern

open Parse (Machine)

structure Sound (dotMatchesAny : Bool) (text : List Char) (tokens : List Token) : Prop where
  scanned : ∃ length, Scanned dotMatchesAny 0 text tokens length []
  sentence : tokenKinds tokens ∈ grammar.language
  ordered : Ordered (tokenSigns tokens)

/-- There is an error at the token behind these tokens, where `text` is left: the token cannot be
read, or it can but no sentence begins in this way, or one does but a range that ends before the
token is out of order. The last argument is what is left once the token has been read. -/
inductive Fails (dotMatchesAny : Bool) (tokens : List Token) (offset : Nat) (text : List Char) :
    Error → List Char → Prop
  | unreadable {e : Error} : readToken dotMatchesAny offset text = .error e → Unreadable e →
      Fails dotMatchesAny tokens offset text e text
  | unexpected {token : Token} {rest : List Char} :
      readToken dotMatchesAny offset text = .ok (token, rest) →
      ¬ Viable (tokenKinds (tokens ++ [token])) →
      Fails dotMatchesAny tokens offset text
        (.rejected [.unexpected token.symbol.name token.text]) rest
  | malformed {token : Token} {rest : List Char} {first last : Letter} :
      readToken dotMatchesAny offset text = .ok (token, rest) →
      Viable (tokenKinds (tokens ++ [token])) →
      EndsRange tokens first last → last.literal < first.literal →
      Fails dotMatchesAny tokens offset text (.malformedRange first.literal last.literal) rest

structure Passed (dotMatchesAny : Bool) (text : List Char) (tokens : List Token) (offset : Nat)
    (rest : List Char) : Prop where
  scanned : Scanned dotMatchesAny 0 text tokens offset rest
  fine : ∀ {before : List Token} {offset' : Nat} {text' left : List Char} {e : Error},
    Scanned dotMatchesAny 0 text before offset' text' → before.length < tokens.length →
      ¬ Fails dotMatchesAny before offset' text' e left

variable {dotMatchesAny : Bool} {text rest left : List Char} {offset : Nat} {tokens : List Token}
  {m : Machine Symbol Value} {x : Logged Reading} {token : Token} {o : Outline} {e : Error}

theorem EndsRange.unique {front : List Sign} {first last first' last' : Letter}
    (range : EndsRange tokens first last)
    (equal : tokenSigns tokens = front ++ [first'.sign, mark .dash, last'.sign]) :
    first' = first ∧ last' = last := by
  obtain ⟨before, equal'⟩ := range
  have same := List.append_inj_right' (equal'.trans equal) rfl
  simp only [List.cons.injEq, Letter.sign, Prod.mk.injEq, Value.letter.injEq] at same
  exact ⟨same.1.2.symm, same.2.2.1.2.symm⟩

theorem Poised.unreadable (poised : Poised dotMatchesAny tokens offset text m x)
    (read : readToken dotMatchesAny offset text = .error e) (bound : Nat) :
    Parse.run table Reading.client (bound + 1) m x =
      some (.aborted (.error e), ⟨{ x.state with tokenOffset := offset }, x.log⟩) := by
  obtain ⟨s, v, stack, top, _⟩ := poised.top
  obtain rfl := poised.offset
  refine Parse.run_error (Machine.step_error top ?_) bound
  rw [← poised.rest, ← poised.option] at read
  rw [Machine.select, poised.reduced, poised.lookahead]
  exact Parse.bind_of_error (next_error read x.log)

theorem viable_concat_iff (followed : Outline.start.follow (tokenKinds tokens) = some o) :
    Viable (tokenKinds (tokens ++ [token])) ↔ (o.advance token.symbol).isSome := by
  rw [viable_iff, tokenKinds_append, Outline.follow_append, followed, Option.bind_some, tokenKinds,
    List.map_singleton, Outline.follow_singleton]

theorem Poised.unexpected (poised : Poised dotMatchesAny tokens offset text m x)
    (followed : Outline.start.follow (tokenKinds tokens) = some o)
    (read : readToken dotMatchesAny offset text = .ok (token, rest))
    (unviable : ¬ Viable (tokenKinds (tokens ++ [token]))) (bound : Nat) : ∃ log,
    Parse.run table Reading.client (bound + 1) m x =
      some (.rejected [.unexpected token.symbol.name token.text], ⟨{ x.state with
        rest, offset := offset + token.text.utf8ByteSize, tokenOffset := offset }, log⟩) := by
  obtain ⟨s, v, stack, top, lt, reads, mode, nesting⟩ := poised.exists_top followed
  have stuck : table.action? s token.symbol = none := by
    rwa [← Option.not_isSome_iff_eq_none,
      action_isSome lt reads (terminal_of_readToken read) mode nesting, ← viable_concat_iff followed]
  have step := Machine.step_recover top (poised.select read) stuck
  rw [Machine.recover_eq poised.steady action_error, poised.fine] at step
  exact ⟨_, Parse.run_ended step bound⟩

theorem combine_reversed {first last : Letter} (reversed : last.literal < first.literal) (dash : Value)
    (y : Logged Graph) : combine 13 [.letter first, dash, .letter last] y =
      .error (.error (.malformedRange first.literal last.literal)) y := by
  rw [combine, if_pos reversed]
  rfl

theorem Poised.malformed (poised : Poised dotMatchesAny tokens offset text m x)
    (followed : Outline.start.follow (tokenKinds tokens) = some o)
    (read : readToken dotMatchesAny offset text = .ok (token, rest))
    (viable : Viable (tokenKinds (tokens ++ [token]))) {first last : Letter}
    (range : EndsRange tokens first last) (reversed : last.literal < first.literal) (bound : Nat) :
    ∃ log, Parse.run table Reading.client (bound + 1) m x =
      some (.aborted (.error (.malformedRange first.literal last.literal)), ⟨{ x.state with
        rest, offset := offset + token.text.utf8ByteSize, tokenOffset := offset }, log⟩) := by
  obtain ⟨s, v, stack, top, lt, reads, mode, nesting⟩ := poised.exists_top followed
  obtain ⟨_, _, _, _, _, _, _, bounds⟩ := exists_of_endsRange range followed
  obtain rfl := eq_of_bound lt reads (bounds ▸ mode)
  have action : table.action? 33 token.symbol = some (.reduce 13) := by
    refine action_bound (terminal_of_readToken read) ?_
    rwa [action_isSome lt reads (terminal_of_readToken read) mode nesting,
      ← viable_concat_iff followed]
  -- The last three entries of the stack are those of the range.
  have path := poised.path
  rw [top] at path
  obtain ⟨popped, entry, below, front, more, shape, _, equal, holds, _⟩ :=
    path.pop (reduce_fits action).1
  obtain _ | ⟨⟨last', rfl, rfl⟩, _ | ⟨rfl, _ | ⟨⟨first', rfl, rfl⟩, _ | _⟩⟩⟩ := holds
  obtain ⟨rfl, rfl⟩ := range.unique equal
  have step := Machine.step_reduce top (poised.select read) action
  rw [← top, ← Machine.stack_settle m token.symbol] at shape
  have step := step.trans <|
    Machine.reduce_error _ shape rfl rfl (reduce_error (combine_reversed reversed _ ⟨_, _⟩))
  exact ⟨_, Parse.run_error step bound⟩

theorem Poised.fails (poised : Poised dotMatchesAny tokens offset text m x)
    (followed : Outline.start.follow (tokenKinds tokens) = some o)
    (fails : Fails dotMatchesAny tokens offset text e left) (bound : Nat) : ∃ verdict y,
    Parse.run table Reading.client (bound + 1) m x = some (verdict, y) ∧
      (verdict = .aborted (.error e) ∨ ∃ diagnostics, e = .rejected diagnostics ∧
        verdict = .rejected diagnostics) ∧ y.state.rest = left ∧ y.state.tokenOffset = offset := by
  cases fails with
  | unreadable read _ => exact ⟨_, _, poised.unreadable read bound, .inl rfl, poised.rest, rfl⟩
  | unexpected read unviable =>
      obtain ⟨log, run⟩ := poised.unexpected followed read unviable bound
      exact ⟨_, _, run, .inr ⟨_, rfl, rfl⟩, rfl, rfl⟩
  | malformed read viable range reversed =>
      obtain ⟨log, run⟩ := poised.malformed followed read viable range reversed bound
      exact ⟨_, _, run, .inl rfl, rfl, rfl⟩

namespace Passed

theorem viable_ordered (passed : Passed dotMatchesAny text tokens offset rest) :
    Viable (tokenKinds tokens) ∧ Ordered (tokenSigns tokens.dropLast) := by
  -- The last token was the next one once, and did not fail then.
  induction tokens using List.reverseRecOn generalizing offset rest with
  | nil => exact ⟨viable_iff.2 rfl, fun front first last range => by simp [tokenSigns] at range⟩
  | append_singleton tokens token ih =>
      obtain ⟨offset', text', before, _, read, _⟩ := passed.scanned.exists_of_concat
      have shorter : tokens.length < (tokens ++ [token]).length := by simp
      have passed' : Passed dotMatchesAny text tokens offset' text' :=
        ⟨before, fun scanned short => passed.fine scanned (short.trans shorter)⟩
      have viable : Viable (tokenKinds (tokens ++ [token])) := by
        by_contra unviable
        exact passed.fine before shorter (.unexpected read unviable)
      rw [List.dropLast_concat]
      refine ⟨viable, ordered_iff.2 ⟨(ih passed').2, fun first last range => ?_⟩⟩
      by_contra reversed
      exact passed.fine before shorter (.malformed read viable range (Nat.not_le.1 reversed))

theorem parse (passed : Passed dotMatchesAny text tokens offset rest)
    (fails : Fails dotMatchesAny tokens offset rest e left)
    (option : x.state.dotMatchesAny = dotMatchesAny) (start : x.state.offset = 0)
    (whole : x.state.rest = text) : ∃ y, Reading.parse x = .error (.error e) y ∧
      y.state.rest = left ∧ y.state.tokenOffset = offset := by
  obtain ⟨viable, ordered⟩ := passed.viable_ordered
  obtain ⟨o, followed⟩ := Option.isSome_iff_exists.1 (viable_iff.1 viable)
  have open_ : o.mode ≠ .ended := fun ended =>
    passed.scanned.endMark_notMem (Outline.endMark_mem followed (by decide) ended)
  obtain ⟨spare, m, x', poised, runs⟩ :=
    exists_poised passed.scanned followed open_ ordered option start whole
  obtain ⟨verdict, y, run, ended, final⟩ := poised.fails followed fails spare
  refine ⟨y, ?_, final⟩
  rw [← runs, ← whole] at run
  rw [Reading.parse, Parse.parse]
  rcases ended with rfl | ⟨diagnostics, rfl, rfl⟩
  · rw [show Reading.client.blank = Value.none from rfl, run]
  · rw [show Reading.client.blank = Value.none from rfl, run]

theorem concat (passed : Passed dotMatchesAny text tokens offset rest) (more : rest ≠ [])
    (read : readToken dotMatchesAny offset rest = .ok (token, left))
    (fine : ∀ e left, ¬ Fails dotMatchesAny tokens offset rest e left) :
    Passed dotMatchesAny text (tokens ++ [token]) (offset + token.text.utf8ByteSize) left where
  scanned := passed.scanned.concat more read
  fine scanned short fails := by
    rw [List.length_append, List.length_singleton, Nat.lt_succ_iff] at short
    rcases Nat.lt_or_eq_of_le short with shorter | same
    · exact passed.fine scanned shorter fails
    · obtain ⟨rfl, rfl, rfl⟩ := passed.scanned.unique scanned same
      exact fine _ _ fails

theorem sound_or_fails (passed : Passed dotMatchesAny text tokens offset rest) :
    (∃ tokens, Sound dotMatchesAny text tokens) ∨ ∃ tokens offset rest e left,
      Passed dotMatchesAny text tokens offset rest ∧ Fails dotMatchesAny tokens offset rest e left := by
  -- On what is left of the text; the next token takes something of it, or is the end mark.
  induction length_eq : rest.length using Nat.strong_induction_on generalizing tokens offset rest with
  | _ length ih =>
  by_cases fails : ∃ e left, Fails dotMatchesAny tokens offset rest e left
  · obtain ⟨e, left, fails⟩ := fails
    exact .inr ⟨_, _, _, e, left, passed, fails⟩
  simp only [not_exists] at fails
  cases read : readToken dotMatchesAny offset rest with
  | error e => exact (fails _ _ (.unreadable read (unreadable_of_readToken read))).elim
  | ok result =>
      obtain ⟨token, left⟩ := result
      have viable : Viable (tokenKinds (tokens ++ [token])) := by
        by_contra unviable
        exact fails _ _ (.unexpected read unviable)
      by_cases more : rest = []
      · subst more
        cases read
        have sentence := viable
        rw [tokenKinds_append] at sentence
        refine .inl ⟨tokens, ⟨offset, passed.scanned⟩, viable_endMark_iff.1 sentence,
          ordered_iff.2 ⟨passed.viable_ordered.2, fun first last range => ?_⟩⟩
        by_contra reversed
        exact fails _ _ (.malformed rfl viable range (Nat.not_le.1 reversed))
      · have shorter : left.length < length := length_eq ▸ length_lt_of_readToken more read
        exact ih _ shorter (passed.concat more read fails) rfl

theorem start (dotMatchesAny : Bool) (text : List Char) : Passed dotMatchesAny text [] 0 text where
  scanned := .stop 0 text
  fine _ short := (Nat.not_lt_zero _ short).elim

end Passed

theorem Sound.exists_body (sound : Sound dotMatchesAny text tokens) :
    ∃ b : Body, Spells dotMatchesAny text b.signs := by
  obtain ⟨length, scanned⟩ := sound.scanned
  obtain ⟨front, equal, spells, _⟩ := scanned.exists_front
  rw [List.append_nil] at equal
  subst equal
  obtain ⟨o, followed, closed, flat⟩ := mem_language_iff.1 sound.sentence
  rw [← kinds_tokenSigns] at followed
  have drawn := (Drawn.item .start).follow spells.plain_signs sound.ordered followed
    (Mode.missing_of_closed closed).2
  obtain ⟨b, equal⟩ := drawn.exists_body closed flat
  rw [List.nil_append] at equal
  exact ⟨b, equal ▸ spells⟩

def RejectedAt (source : String) (dotMatchesAny : Bool) (x : Logged Graph) (offset : Nat) (e : Error)
    (left : List Char) : Prop :=
  ∃ y, Reading.parse ⟨{ source, dotMatchesAny, rest := source.toList, graph := x.state }, x.log⟩ =
      .error (.error e) y ∧
    compile source dotMatchesAny x = .error (.error e) ⟨y.state.graph, y.log⟩ ∧
    y.state.tokenOffset = offset ∧ y.state.rest = left

theorem compile_error {source : String} {y : Logged Graph} {z : Logged Reading} {failure : Failure}
    (parsed : Reading.parse ⟨{ source, dotMatchesAny, rest := source.toList, graph := y.state }, y.log⟩ =
      .error failure z) :
    compile source dotMatchesAny y = .error failure ⟨z.state.graph, z.log⟩ := by
  refine (Parse.bind_of_ok rfl).trans (Parse.bind_of_error ?_)
  rw [Recorded.via]
  simp only [parsed]

theorem exists_rejectedAt {source : String}
    (unsound : ¬ ∃ tokens, Sound dotMatchesAny source.toList tokens) (x : Logged Graph) :
    ∃ tokens offset rest e left, Passed dotMatchesAny source.toList tokens offset rest ∧
      Fails dotMatchesAny tokens offset rest e left ∧
      RejectedAt source dotMatchesAny x offset e left := by
  obtain ⟨tokens, offset, rest, e, left, passed, fails⟩ :=
    (Passed.start dotMatchesAny source.toList).sound_or_fails.resolve_left unsound
  obtain ⟨y, parsed, final, position⟩ := passed.parse fails
    (x := ⟨{ source, dotMatchesAny, rest := source.toList, graph := x.state }, x.log⟩) rfl rfl rfl
  exact ⟨tokens, offset, rest, e, left, passed, fails, y, parsed, compile_error parsed, position, final⟩

/-- A pattern compiles exactly if all its tokens can be read, they are those of a sentence, and its
ranges are in order. Any other pattern is rejected with the error of the first token that has one,
and what is behind this token is not read. -/
theorem compile_decided (source : String) (dotMatchesAny : Bool) (x : Logged Graph) :
    ((∃ f y, compile source dotMatchesAny x = .ok f y) ↔
      ∃ tokens, Sound dotMatchesAny source.toList tokens) ∧
    ((¬ ∃ tokens, Sound dotMatchesAny source.toList tokens) → ∃ tokens offset rest e left,
      Passed dotMatchesAny source.toList tokens offset rest ∧
        Fails dotMatchesAny tokens offset rest e left ∧
        RejectedAt source dotMatchesAny x offset e left) := by
  refine ⟨⟨?_, ?_⟩, fun unsound => exists_rejectedAt unsound x⟩
  · rintro ⟨f, y, compiled⟩
    by_contra unsound
    obtain ⟨_, _, _, _, _, _, _, _, _, failed, _⟩ := exists_rejectedAt unsound x
    rw [compiled] at failed
    cases failed
  · rintro ⟨tokens, sound⟩
    obtain ⟨b, spelled⟩ := sound.exists_body
    obtain ⟨f, h, makes, _⟩ := makes_compile spelled x.state
    obtain ⟨log, compiled⟩ := makes x.log
    exact ⟨f, _, compiled⟩

end LongestMatch.Pattern
