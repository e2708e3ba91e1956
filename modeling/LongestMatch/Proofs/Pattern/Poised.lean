import LongestMatch.Proofs.Pattern.Abreast

namespace LongestMatch.Pattern

open Parse (Machine)

def EndsRange (tokens : List Token) (first last : Letter) : Prop :=
  [first.sign, mark .dash, last.sign] <:+ tokenSigns tokens

structure Poised (dotMatchesAny : Bool) (tokens : List Token) (offset : Nat) (rest : List Char)
    (m : Machine Symbol Value) (x : Logged Reading) : Prop where
  steady : m.recovering = false
  fine : m.diagnostics = []
  reduced : m.reduced = none
  lookahead : m.lookahead = none
  option : x.state.dotMatchesAny = dotMatchesAny
  offset : x.state.offset = offset
  rest : x.state.rest = rest
  top : ∃ s v stack, m.stack = (s, v) :: stack ∧ reading s = true
  path : Path m.stack (tokenSigns tokens)

variable {dotMatchesAny : Bool} {text rest : List Char} {offset : Nat} {tokens : List Token}
  {m : Machine Symbol Value} {x : Logged Reading} {token : Token} {o : Outline}

theorem Abreast.poised {front tail : List Char} {y : Logged Reading}
    (stopped : Abreast dotMatchesAny (front ++ tail) offset rest tail [] m x y)
    (idle : m.lookahead = none) (spells : Spells dotMatchesAny front (tokenSigns tokens)) :
    Poised dotMatchesAny tokens offset rest m x := by
  obtain ⟨steady, option, front', signs, taken, ahead, equal, path, spells', shown, waiting⟩ :=
    stopped.follows
  have reduced : m.reduced = none := by
    by_contra head
    exact stopped.pending head idle
  rw [reduced] at shown
  rw [idle] at waiting
  subst shown waiting
  rw [stopped.right.of_nil.2] at equal
  obtain rfl := List.append_cancel_right equal
  rw [List.append_nil, List.append_nil] at spells'
  obtain rfl := spells'.unique spells
  have left := stopped.left.of_nil
  exact ⟨steady, stopped.fine, reduced, idle, stopped.alike.option.trans option, left.1, left.2,
    stopped.ready idle, path⟩

theorem exists_poised_of_ordered (scanned : Scanned dotMatchesAny 0 text tokens offset rest)
    (followed : Outline.start.follow (tokenKinds tokens) = some o) (open_ : o.mode ≠ .ended)
    (ordered : Ordered (tokenSigns tokens)) (option : x.state.dotMatchesAny = dotMatchesAny)
    (start : x.state.offset = 0) (whole : x.state.rest = text) :
    ∃ spare m x', Poised dotMatchesAny tokens offset rest m x' ∧
      ∀ more, Parse.run table Reading.client (14 * tokens.length + 17 + more) (.initial .none) x =
        Parse.run table Reading.client (spare + 1 + more) m x' := by
  obtain ⟨front, rfl, spells, others⟩ := scanned.exists_front
  rw [← kinds_tokenSigns] at followed
  have drawn : Drawn o (tokenSigns tokens) :=
    (Drawn.item .start).follow spells.plain_signs ordered followed open_
  -- A pattern with the same tokens that is accepted.
  obtain ⟨ending, ⟨b, equal⟩, length, few⟩ := drawn.exists_completes
  obtain ⟨tail, spelled⟩ := exists_spells few dotMatchesAny
  have all : Spells dotMatchesAny (front ++ tail) b.signs := equal ▸ spells.append spelled
  let y : Logged Reading := ⟨{ x.state with rest := front ++ tail }, x.log⟩
  -- To accept it takes few moves, because the tail is short.
  have bounded : 7 * b.signs.length + 2 < 14 * tokens.length + 17 := by
    have missing := o.mode.missing_le
    have depth := drawn.depth_le
    rw [← equal, List.length_append]
    simp only [tokenSigns, List.length_map] at depth ⊢
    omega
  obtain ⟨f, _, _, _, parsed⟩ := Body.exists_parsed all.valid x.state.graph
  obtain ⟨_, _, accepted, _⟩ := parsed (r := y.state) option all rfl x.log _ bounded
  have abreast : Abreast dotMatchesAny (front ++ tail) offset rest tail tokens (.initial .none) x y := by
    refine ⟨⟨rfl, rfl, rfl, ⟨rfl, rfl⟩, rfl, rfl⟩, ?_, ?_, ?_, rfl, ?_, ?_, ?_⟩
    · rw [start, whole]
      exact scanned
    · rw [start]
      exact others tail
    · exact ⟨rfl, option, [], [], [], [], rfl, .start _, .nil, rfl, rfl⟩
    · simp [Machine.initial]
    · simp [Machine.initial]
    · exact fun _ => ⟨0, _, _, rfl, rfl⟩
  obtain ⟨spare, m, x', y', stopped, idle, runs⟩ := abreast.exists_stop accepted
  exact ⟨spare, m, x', stopped.poised idle spells, runs⟩

theorem Poised.exists_top (poised : Poised dotMatchesAny tokens offset rest m x)
    (followed : Outline.start.follow (tokenKinds tokens) = some o) :
    ∃ s v stack, m.stack = (s, v) :: stack ∧ s < 39 ∧ reading s = true ∧ o.mode ∈ stateModes s ∧
      (stateNesting s).allows o.depth = true := by
  obtain ⟨s, v, stack, top, reads⟩ := poised.top
  have path := poised.path
  rw [top] at path
  obtain ⟨o', followed', mode, nesting⟩ := path.follow
  rw [kinds_tokenSigns, followed] at followed'
  cases followed'
  exact ⟨s, v, stack, top, path.lt, reads, mode, nesting⟩

theorem Poised.select (poised : Poised dotMatchesAny tokens offset text m x)
    (read : readToken dotMatchesAny offset text = .ok (token, rest)) :
    m.select Reading.client x = .ok (token, m) ⟨{ x.state with
      rest, offset := offset + token.text.utf8ByteSize, tokenOffset := offset }, x.log⟩ := by
  rw [← poised.offset, ← poised.rest] at read
  rw [select_next poised.reduced poised.lookahead poised.option read, poised.offset]

theorem Poised.exists_shift (poised : Poised dotMatchesAny tokens offset text m x) (more : text ≠ [])
    (read : readToken dotMatchesAny offset text = .ok (token, rest)) {s s' : Nat} {v : Value}
    {stack : List (Nat × Value)} (top : m.stack = (s, v) :: stack)
    (action : table.action? s token.symbol = some (.shift s')) :
    ∃ m' x', m.step table Reading.client x = .ok (.running m') x' ∧
      Poised dotMatchesAny (tokens ++ [token]) (offset + token.text.utf8ByteSize) rest m' x' := by
  obtain ⟨lexeme, _, spelled⟩ := exists_lexeme more read
  have path := poised.path
  rw [top] at path
  refine ⟨_, _, Machine.step_shift top (poised.select read) action, Machine.recovering_settle poised.steady _,
    ?_, ?_, ?_, poised.option, rfl, rfl, ⟨s', _, _, rfl, ?_⟩, ?_⟩
  · simpa using poised.fine
  · simpa using poised.reduced
  · simpa using poised.lookahead
  · exact reading_of_shift (mem_shifts action) (notMem_nonterminals spelled.terminal)
  · rw [tokenSigns_append]
    simpa [top, tokenSigns] using path.shift action spelled.shows

theorem ordered_iff : Ordered (tokenSigns tokens) ↔ Ordered (tokenSigns tokens.dropLast) ∧
    ∀ first last, EndsRange tokens first last → first.literal ≤ last.literal := by
  constructor
  · intro ordered
    refine ⟨ordered.of_prefix ((List.dropLast_prefix tokens).map _), ?_⟩
    rintro first last ⟨before, equal⟩
    exact ordered before first last (equal ▸ List.prefix_rfl)
  · rintro ⟨ordered, final⟩ before first last range
    rcases List.eq_nil_or_concat tokens with rfl | ⟨init, token, rfl⟩
    · exact ordered before first last range
    rw [List.concat_eq_append] at ordered final range
    rw [List.dropLast_concat] at ordered
    rw [tokenSigns_append] at range
    rcases List.prefix_concat_iff.1 range with whole | inner
    · exact final first last ⟨before, whole.trans (tokenSigns_append init [token]).symm⟩
    · exact ordered before first last inner

theorem exists_of_endsRange {first last : Letter} (range : EndsRange tokens first last)
    (followed : Outline.start.follow (tokenKinds tokens) = some o) :
    ∃ init high o', tokens = init ++ [high] ∧ (high.symbol, high.value) = last.sign ∧
      Outline.start.follow (tokenKinds init) = some o' ∧ o'.mode = .dash ∧ o.mode = .bound := by
  obtain ⟨signs, equal⟩ := range
  rcases List.eq_nil_or_concat tokens with rfl | ⟨init, high, rfl⟩
  · simp [tokenSigns] at equal
  rw [List.concat_eq_append] at equal followed ⊢
  rw [tokenSigns_append] at equal
  obtain ⟨front, sign⟩ : signs ++ [first.sign] ++ [mark .dash] = tokenSigns init ∧
      [last.sign] = tokenSigns [high] := List.append_inj' (by simpa using equal) rfl
  rw [tokenKinds_append, Outline.follow_append] at followed
  obtain ⟨o', follows, step⟩ := Option.bind_eq_some_iff.1 followed
  have behind := follows
  rw [← kinds_tokenSigns, ← front, kinds_append, Outline.follow_append] at behind
  obtain ⟨o₁, _, dash⟩ := Option.bind_eq_some_iff.1 behind
  have mode := Outline.mode_of_dash ((o₁.follow_singleton .dash).symm.trans dash)
  refine ⟨init, high, o', rfl, List.singleton_inj.1 sign.symm, follows, mode, ?_⟩
  exact Outline.mode_of_bound ((o'.follow_singleton high.symbol).symm.trans step) mode

/-- The last range may be out of order; it is only checked when the token behind it has been read. -/
theorem exists_poised (scanned : Scanned dotMatchesAny 0 text tokens offset rest)
    (followed : Outline.start.follow (tokenKinds tokens) = some o) (open_ : o.mode ≠ .ended)
    (ordered : Ordered (tokenSigns tokens.dropLast)) (option : x.state.dotMatchesAny = dotMatchesAny)
    (start : x.state.offset = 0) (whole : x.state.rest = text) :
    ∃ spare m x', Poised dotMatchesAny tokens offset rest m x' ∧
      Parse.run table Reading.client (Reading.moves text.length) (.initial .none) x =
        Parse.run table Reading.client (spare + 1) m x' := by
  have length := scanned.length_le
  by_cases final : ∀ first last, EndsRange tokens first last → first.literal ≤ last.literal
  · obtain ⟨spare, m, x', poised, runs⟩ :=
      exists_poised_of_ordered scanned followed open_ (ordered_iff.2 ⟨ordered, final⟩) option start whole
    obtain ⟨more, enough⟩ : ∃ more, Reading.moves text.length = 14 * tokens.length + 17 + more :=
      ⟨Reading.moves text.length - (14 * tokens.length + 17), by rw [Reading.moves]; omega⟩
    exact ⟨spare + more, m, x', poised, by rw [enough, runs, Nat.add_right_comm]⟩
  · simp only [not_forall] at final
    obtain ⟨first, last, range, reversed⟩ := final
    -- Up to the dash all ranges are in order, and the parser shifts the character behind it at once.
    obtain ⟨init, high, o', rfl, sign, followed', dash, _⟩ := exists_of_endsRange range followed
    rw [List.dropLast_concat] at ordered
    obtain ⟨offset', rest', scanned', more, read, rfl⟩ := scanned.exists_of_concat
    obtain ⟨spare, m, x', poised, runs⟩ :=
      exists_poised_of_ordered scanned' followed' (by simp [dash]) ordered option start whole
    obtain ⟨s, v, stack, top, lt, _, mode, _⟩ := poised.exists_top followed'
    obtain rfl := eq_of_dash lt (dash ▸ mode)
    have action : table.action? 23 high.symbol = some (.shift 33) := by
      rw [show high.symbol = .char from congrArg Prod.fst sign]
      rfl
    obtain ⟨m', x'', step, poised'⟩ := poised.exists_shift more read top action
    obtain ⟨more, enough⟩ : ∃ more, Reading.moves text.length = 14 * init.length + 17 + (more + 1) := by
      rw [List.length_append] at length
      exact ⟨Reading.moves text.length - (14 * init.length + 18), by rw [Reading.moves]; omega⟩
    refine ⟨spare + more, m', x'', poised', ?_⟩
    rw [enough, runs, ← Nat.add_assoc, Parse.run_running step, Nat.add_right_comm]

end LongestMatch.Pattern
