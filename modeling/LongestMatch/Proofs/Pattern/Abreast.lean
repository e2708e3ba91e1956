import LongestMatch.Proofs.Pattern.Scanning

namespace LongestMatch.Pattern

open Parse (Machine)

structure Alike (offset : Nat) (text other : List Char) (x y : Logged Reading) : Prop where
  log : x.log = y.log
  graph : x.state.graph = y.state.graph
  option : x.state.dotMatchesAny = y.state.dotMatchesAny
  offset : x.state.offset = offset ∧ y.state.offset = offset
  rest : x.state.rest = text ∧ y.state.rest = other

theorem respects_alike (offset : Nat) (text other : List Char) :
    Reading.client.Respects (Alike offset text other) where
  observe {x y} alike move := by
    refine ⟨?_, alike.graph, alike.option, alike.offset, alike.rest⟩
    show x.log.push _ = y.log.push _
    rw [alike.log]
  reduce {x y y' p values value} alike reduced := by
    obtain ⟨g, log, built, rfl⟩ := exists_of_reduce reduced
    rw [← alike.graph, ← alike.log] at built
    exact ⟨_, reduce_eq built, rfl, rfl, alike.option, alike.offset, alike.rest⟩

/-- The parser has read the same tokens of two patterns, and will read the same. The second pattern
is `source`. -/
structure Abreast (dotMatchesAny : Bool) (source : List Char) (offset : Nat) (text other : List Char)
    (tokens : List Token) (m : Machine Symbol Value) (x y : Logged Reading) : Prop where
  alike : Alike x.state.offset x.state.rest y.state.rest x y
  left : Scanned dotMatchesAny x.state.offset x.state.rest tokens offset text
  right : Scanned dotMatchesAny x.state.offset y.state.rest tokens offset other
  follows : Follows dotMatchesAny source m y.state
  fine : m.diagnostics = []
  pending : m.reduced ≠ none → m.lookahead ≠ none
  waiting : ∀ token, m.lookahead = some token → token.symbol ∈ terminals ∧ token.symbol ≠ .endMark
  ready : m.lookahead = none → ∃ s v stack, m.stack = (s, v) :: stack ∧ reading s = true

structure Picks (dotMatchesAny : Bool) (offset : Nat) (text other : List Char) (tokens : List Token)
    (m m' : Machine Symbol Value) (token : Token) (x y : Logged Reading) : Prop where
  alike : Alike x.state.offset x.state.rest y.state.rest x y
  left : Scanned dotMatchesAny x.state.offset x.state.rest tokens offset text
  right : Scanned dotMatchesAny x.state.offset y.state.rest tokens offset other
  reduced : m'.reduced = none
  open_ : token.symbol ≠ .endMark
  waiting : ∀ token, m'.lookahead = some token → token.symbol ∈ terminals ∧ token.symbol ≠ .endMark
  origin : token.symbol ∈ nonterminals ∧ m'.lookahead ≠ none ∨ token.symbol ∈ terminals

variable {dotMatchesAny : Bool} {source text other : List Char} {offset : Nat} {tokens : List Token}
  {m m' : Machine Symbol Value} {x y y' z : Logged Reading} {token : Token} {value : Value}

theorem notMem_nonterminals {symbol : Symbol} (terminal : symbol ∈ terminals) :
    symbol ∉ nonterminals := by
  revert symbol
  decide

theorem Abreast.select (abreast : Abreast dotMatchesAny source offset text other tokens m x y)
    (more : m.lookahead = none → tokens ≠ []) : ∃ token m' x' y' tokens',
      m.select Reading.client x = .ok (token, m') x' ∧ m.select Reading.client y = .ok (token, m') y' ∧
        Picks dotMatchesAny offset text other tokens' m m' token x' y' := by
  obtain ⟨_, option, _, _, _, _, _, _, _, shown, _⟩ := abreast.follows
  cases reduced : m.reduced with
  | some head =>
      have waits := abreast.pending (by simp [reduced])
      rw [reduced] at shown
      have inner : head.symbol ≠ .endMark := fun last => absurd (last ▸ shown.1) (by decide)
      refine ⟨head, { m with reduced := none }, x, y, tokens, ?_, ?_, abreast.alike, abreast.left,
        abreast.right, rfl, inner, abreast.waiting, .inl ⟨shown.1, waits⟩⟩
      · rw [Machine.select, reduced]
        rfl
      · rw [Machine.select, reduced]
        rfl
  | none =>
      cases lookahead : m.lookahead with
      | some token =>
          obtain ⟨terminal, open_⟩ := abreast.waiting token lookahead
          refine ⟨token, { m with lookahead := none }, x, y, tokens, ?_, ?_, abreast.alike,
            abreast.left, abreast.right, reduced, open_, (fun _ => (by cases ·)), .inr terminal⟩
          · rw [Machine.select, reduced, lookahead]
            rfl
          · rw [Machine.select, reduced, lookahead]
            rfl
      | none =>
          obtain ⟨first, tokens, rfl⟩ := List.exists_cons_of_ne_nil (more lookahead)
          have option' := abreast.alike.option.trans option
          have offset' := abreast.alike.offset.2
          cases abreast.left with | read some readX left =>
          cases abreast.right with | read _ readY right =>
          obtain ⟨lexeme, _, spelled⟩ := exists_lexeme some readX
          rw [← offset'] at readY right
          refine ⟨first, m, _, _, tokens, select_next reduced lookahead option' readX,
            select_next reduced lookahead option readY, ?_, left, offset' ▸ right, reduced,
            spelled.ne_endMark, abreast.waiting, .inr spelled.terminal⟩
          exact ⟨abreast.alike.log, abreast.alike.graph, abreast.alike.option, ⟨rfl, by rw [offset']⟩, rfl, rfl⟩

theorem Abreast.step (abreast : Abreast dotMatchesAny source offset text other tokens m x y)
    (more : m.lookahead = none → tokens ≠ [])
    (moved : m.step table Reading.client y = .ok (.running m') y') (fine : m'.diagnostics = []) :
    ∃ x' tokens', m.step table Reading.client x = .ok (.running m') x' ∧
      Abreast dotMatchesAny source offset text other tokens' m' x' y' := by
  have follows := (abreast.follows.step moved).1 m' rfl fine
  obtain ⟨token, m₁, x₁, y₁, tokens', selectX, selectY, picks⟩ := abreast.select more
  obtain ⟨_, ended⟩ | ⟨s, v, stack, token', m₂, y₂, top, select, moved⟩ := Machine.step_cases moved
  · cases ended
  rw [selectY] at select
  cases select
  obtain ⟨s', action, progress, rfl⟩ | ⟨p, action, moved⟩ | ⟨_, moved⟩ := moved
  · cases progress
    have alike := (respects_alike _ _ _).observe picks.alike (.shift s token.symbol.name s')
    refine ⟨_, tokens', Machine.step_shift top selectX action, alike, picks.left, picks.right, follows,
      fine, ?_, ?_, ?_⟩
    · simp [picks.reduced]
    · simpa using picks.waiting
    · intro none
      have terminal := picks.origin.resolve_left fun inner => inner.2 (by simpa using none)
      exact ⟨s', _, _, rfl, reading_of_shift (mem_shifts action) (notMem_nonterminals terminal)⟩
  · obtain ⟨x', reduced, alike⟩ := Machine.exists_reduce (respects_alike _ _ _) picks.alike moved
    have terminal := picks.origin.resolve_left fun inner => (reduce_fits action).2.1 inner.1
    obtain ⟨_, ended, _⟩ | ⟨_, _, _, _, _, _, _, _, _, progress⟩ := Machine.reduce_cases moved
    · cases ended
    split at progress
    · cases progress
    cases progress
    have left := picks.left
    have right := picks.right
    rw [← alike.offset.1, ← alike.rest.1] at left
    rw [← alike.offset.1, ← alike.rest.2] at right
    refine ⟨x', tokens', (Machine.step_reduce top selectX action).trans reduced, ?_, left, right,
      follows, fine, (fun _ => (by cases ·)), ?_, (by cases ·)⟩
    · exact ⟨alike.log, alike.graph, alike.option,
        ⟨rfl, alike.offset.2.trans alike.offset.1.symm⟩, rfl, rfl⟩
    · rintro _ ⟨⟩
      exact ⟨terminal, picks.open_⟩
  · obtain ⟨_, ended, _⟩ | ⟨_, running, more | ⟨recovering, _⟩⟩ := Machine.recover_cases moved
    · cases ended
    · cases running
      exact (more fine).elim
    · rw [(abreast.follows.select selectY).2.steady] at recovering
      cases recovering

theorem Abreast.not_accepted (abreast : Abreast dotMatchesAny source offset text other tokens m x y)
    (more : m.lookahead = none → tokens ≠ []) :
    m.step table Reading.client y ≠ .ok (.ended (.accepted value)) z := by
  intro moved
  obtain ⟨token, m₁, x₁, y₂, tokens', _, selectY, picks⟩ := abreast.select more
  obtain ⟨_, ended⟩ | ⟨s, v, stack, token', m₂, y₃, top, select, moved⟩ := Machine.step_cases moved
  · cases ended
  rw [selectY] at select
  cases select
  obtain ⟨_, _, running, _⟩ | ⟨p, action, moved⟩ | ⟨_, moved⟩ := moved
  · cases running
  · obtain ⟨_, ended, rejected⟩ | ⟨_, _, _, _, _, _, _, _, _, progress⟩ := Machine.reduce_cases moved
    · cases ended
      exact rejected value rfl
    · split at progress
      · rename_i whole
        exact picks.open_ ((reduce_fits action).2.2 whole).2
      · cases progress
  · obtain ⟨_, ended, rejected⟩ | ⟨_, running, _⟩ := Machine.recover_cases moved
    · cases ended
      exact rejected value rfl
    · cases running

theorem Abreast.exists_stop {bound : Nat}
    (abreast : Abreast dotMatchesAny source offset text other tokens m x y)
    (accepted : Parse.run table Reading.client bound m y = some (.accepted value, z)) :
    ∃ spare m' x' y', Abreast dotMatchesAny source offset text other [] m' x' y' ∧
      m'.lookahead = none ∧ ∀ more, Parse.run table Reading.client (bound + more) m x =
        Parse.run table Reading.client (spare + 1 + more) m' x' := by
  -- Along the accepted run, as long as a shared token is waiting or left.
  induction bound generalizing tokens m x y with
  | zero => cases accepted
  | succ bound ih =>
      by_cases stop : m.lookahead = none ∧ tokens = []
      · obtain ⟨idle, rfl⟩ := stop
        exact ⟨bound, m, x, y, abreast, idle, fun _ => rfl⟩
      have unread : m.lookahead = none → tokens ≠ [] := fun idle none => stop ⟨idle, none⟩
      rw [Parse.run] at accepted
      split at accepted
      · rename_i m₁ y₁ moved
        have fine : m₁.diagnostics = [] := by
          by_contra diagnosed
          exact Parse.run_diagnosed diagnosed _ _ _ accepted
        obtain ⟨x₁, tokens₁, same, abreast₁⟩ := abreast.step unread moved fine
        obtain ⟨spare, m', x', y', last, idle, runs⟩ := ih abreast₁ accepted
        refine ⟨spare, m', x', y', last, idle, fun more => ?_⟩
        rw [Nat.add_right_comm, Parse.run_running same]
        exact runs more
      · rename_i verdict y₁ moved
        cases accepted
        exact (abreast.not_accepted unread moved).elim
      · cases accepted

end LongestMatch.Pattern
