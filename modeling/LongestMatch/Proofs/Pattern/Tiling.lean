import LongestMatch.Proofs.Pattern.Faultless

namespace LongestMatch.Pattern

def Reading.tokens : Nat → Recorded Reading (List Token)
  | 0 => return []
  | n + 1 => do
    let token ← next
    return token :: (← tokens n)

def spelling (tokens : List Token) : String := String.join (tokens.map (·.text))

@[simp]
theorem spelling_cons (token : Token) (tokens : List Token) :
    spelling (token :: tokens) = token.text ++ spelling tokens := String.join_cons

def endToken : Token := ⟨.endMark, .none, ""⟩

/-- Calls of `next`, one for each token, lead from `x` to `y`. Each token is a lexeme, and together they
are what has been taken from the front of the text. -/
structure Tiles (x : Logged Reading) (tokens : List Token) (y : Logged Reading) : Prop where
  calls : Reading.tokens tokens.length x = .ok tokens y
  lexemes : ∀ token ∈ tokens, token.text ≠ "" ∧
    Lexeme x.state.dotMatchesAny token.text.toList (token.symbol, token.value)
  text : x.state.rest = (spelling tokens).toList ++ y.state.rest
  offset : y.state.offset = x.state.offset + (spelling tokens).utf8ByteSize
  others : y = ⟨{ x.state with
    rest := y.state.rest, offset := y.state.offset, tokenOffset := y.state.tokenOffset }, x.log⟩

/-- How calls from `x` go on behind the tokens, where `rest` is left: either that is nothing, and the
end is found again and again, or no lexeme begins there, and the next call fails. -/
inductive Closes (x : Logged Reading) (tokens : List Token) (rest : List Char) : Prop
  | ended : rest = [] → (∀ more, ∃ z, z.state.rest = [] ∧
      Reading.tokens (tokens.length + more) x = .ok (tokens ++ List.replicate more endToken) z) →
      Closes x tokens rest
  | failed {e : Error} : ¬ Begins x.state.dotMatchesAny rest →
      Refuses x.state.dotMatchesAny (x.state.offset + (spelling tokens).utf8ByteSize) rest e →
      (∀ more, ∃ z, Reading.tokens (tokens.length + (more + 1)) x = .error (.error e) z) →
      Closes x tokens rest

variable {dotMatchesAny : Bool} {offset : Nat} {text rest : List Char}
  {token : Token} {tokens before after : List Token} {x y z : Logged Reading}

theorem tokens_add (n k : Nat) : Reading.tokens (n + k) = do
    let found ← Reading.tokens n
    return found ++ (← Reading.tokens k) := by
  induction n with
  | zero => simp [Reading.tokens]
  | succ n ih => simp [Nat.succ_add, Reading.tokens, ih]

theorem tokens_add_ok {n k : Nat} {found more : List Token}
    (first : Reading.tokens n x = .ok found y) (second : Reading.tokens k y = .ok more z) :
    Reading.tokens (n + k) x = .ok (found ++ more) z := by
  rw [tokens_add]
  exact (Parse.bind_of_ok first).trans (Parse.bind_of_ok second)

theorem tokens_add_error {n k : Nat} {found : List Token} {failure : Failure}
    (first : Reading.tokens n x = .ok found y) (second : Reading.tokens k y = .error failure z) :
    Reading.tokens (n + k) x = .error failure z := by
  rw [tokens_add]
  exact (Parse.bind_of_ok first).trans (Parse.bind_of_error second)

theorem tokens_ended (done : x.state.rest = []) (k : Nat) :
    ∃ z, z.state.rest = [] ∧ Reading.tokens k x = .ok (List.replicate k endToken) z := by
  induction k generalizing x with
  | zero => exact ⟨x, done, rfl⟩
  | succ k ih =>
      have read : readToken x.state.dotMatchesAny x.state.offset x.state.rest =
          .ok (endToken, []) := by
        rw [done]
        rfl
      obtain ⟨z, final, calls⟩ := ih (x := ⟨{ x.state with
        rest := [], offset := _, tokenOffset := x.state.offset }, x.log⟩) rfl
      exact ⟨z, final, (Parse.bind_of_ok (next_eq read x.log)).trans (Parse.bind_of_ok calls)⟩

theorem tokens_error {e : Error}
    (failed : readToken x.state.dotMatchesAny x.state.offset x.state.rest = .error e) (k : Nat) :
    ∃ z, Reading.tokens (k + 1) x = .error (.error e) z :=
  ⟨_, Parse.bind_of_error (next_error failed x.log)⟩

namespace Tiles

theorem nil (x : Logged Reading) : Tiles x [] x where
  calls := rfl
  lexemes := List.forall_mem_nil _
  text := rfl
  offset := rfl
  others := rfl

theorem cons (some : x.state.rest ≠ [])
    (read : readToken x.state.dotMatchesAny x.state.offset x.state.rest = .ok (token, rest))
    (tiles : Tiles ⟨{ x.state with
      rest, offset := x.state.offset + token.text.utf8ByteSize, tokenOffset := x.state.offset }, x.log⟩
      tokens y) :
    Tiles x (token :: tokens) y := by
  obtain ⟨spelled, taken⟩ := lexeme_of_readToken some read
  refine ⟨?_, List.forall_mem_cons.2 ⟨⟨?_, spelled⟩, tiles.lexemes⟩, ?_, ?_, tiles.others⟩
  · exact (Parse.bind_of_ok (next_eq read x.log)).trans (Parse.bind_of_ok tiles.calls)
  · exact fun none => spelled.ne_nil (String.toList_eq_nil_iff.2 none)
  · rw [spelling_cons, String.toList_append, List.append_assoc, ← tiles.text]
    exact taken
  · rw [spelling_cons, String.utf8ByteSize_append, ← Nat.add_assoc]
    exact tiles.offset

theorem option (tiles : Tiles x tokens y) :
    y.state.dotMatchesAny = x.state.dotMatchesAny :=
  congrArg (·.state.dotMatchesAny) tiles.others

end Tiles

theorem Scanned.split {offset' : Nat}
    (scanned : Scanned dotMatchesAny offset text (before ++ after) offset' rest) :
    ∃ o r, Scanned dotMatchesAny offset text before o r ∧
      Scanned dotMatchesAny o r after offset' rest := by
  induction before generalizing offset text with
  | nil => exact ⟨offset, text, .stop _ _, scanned⟩
  | cons token before ih =>
      cases scanned with
      | read some read next =>
          obtain ⟨o, r, front, back⟩ := ih next
          exact ⟨o, r, .read some read front, back⟩

theorem Scanned.tiles
    (scanned : Scanned x.state.dotMatchesAny x.state.offset x.state.rest tokens offset rest) :
    ∃ y, Tiles x tokens y ∧ y.state.offset = offset ∧ y.state.rest = rest := by
  induction tokens generalizing x with
  | nil =>
      obtain ⟨rfl, rfl⟩ := scanned.of_nil
      exact ⟨x, .nil x, rfl, rfl⟩
  | cons token tokens ih =>
      cases scanned with
      | @read _ _ _ left _ _ _ some read next =>
          obtain ⟨y, tiles, ends⟩ := ih (x := ⟨{ x.state with
            rest := left
            offset := x.state.offset + token.text.utf8ByteSize
            tokenOffset := x.state.offset }, x.log⟩) next
          exact ⟨y, tiles.cons some read, ends⟩

theorem exists_scanned (dotMatchesAny : Bool) (offset : Nat) (text : List Char) :
    ∃ tokens offset' rest, Scanned dotMatchesAny offset text tokens offset' rest ∧
      (rest = [] ∨ ∃ e, readToken dotMatchesAny offset' rest = .error e) := by
  -- On the length of the text; a token that can be read is not empty.
  induction length_eq : text.length using Nat.strong_induction_on generalizing offset text with
  | _ length ih =>
  by_cases done : text = []
  · exact ⟨[], offset, text, .stop _ _, .inl done⟩
  cases read : readToken dotMatchesAny offset text with
  | error e => exact ⟨[], offset, text, .stop _ _, .inr ⟨e, read⟩⟩
  | ok result =>
      obtain ⟨token, left⟩ := result
      have shorter : left.length < length := length_eq ▸ length_lt_of_readToken done read
      obtain ⟨tokens, offset', rest, scanned, closed⟩ := ih _ shorter _ left rfl
      exact ⟨token :: tokens, offset', rest, .read done read scanned, closed⟩

theorem Tiles.closes (tiles : Tiles x tokens y)
    (closed : y.state.rest = [] ∨
      ∃ e, readToken x.state.dotMatchesAny y.state.offset y.state.rest = .error e) :
    Closes x tokens y.state.rest := by
  obtain done | ⟨e, failed⟩ := closed
  · refine .ended done fun more => ?_
    obtain ⟨z, final, calls⟩ := tokens_ended done more
    exact ⟨z, final, tokens_add_ok tiles.calls calls⟩
  · refine .failed (not_begins_of_readToken failed) (tiles.offset ▸ refuses_of_readToken failed)
      fun more => ?_
    rw [← tiles.option] at failed
    obtain ⟨z, calls⟩ := tokens_error failed more
    exact ⟨z, tokens_add_error tiles.calls calls⟩

theorem Tiles.split (tiles : Tiles x (before ++ after) y)
    (scanned : Scanned x.state.dotMatchesAny x.state.offset x.state.rest (before ++ after) offset rest) :
    ∃ z, Tiles x before z ∧ Tiles z after y := by
  obtain ⟨o, r, front, back⟩ := scanned.split
  obtain ⟨z, first, rfl, rfl⟩ := front.tiles
  rw [← first.option] at back
  obtain ⟨y', second, _⟩ := back.tiles
  have calls := tokens_add_ok first.calls second.calls
  rw [← List.length_append, tiles.calls] at calls
  cases calls
  exact ⟨z, first, second⟩

/-- Calls in a row take the pattern apart into lexemes, in order and without a gap. They end where the
pattern ends, and the end is found there again and again, or at the first place where no lexeme begins,
with the error that tells why, and in which byte. -/
theorem scan_tiles (source : String) (dotMatchesAny : Bool) (x : Logged Graph) :
    ∃ tokens y, Tiles (Reading.start source dotMatchesAny x) tokens y ∧
      (∀ before after, tokens = before ++ after →
        ∃ z, Tiles (Reading.start source dotMatchesAny x) before z ∧ Tiles z after y) ∧
      Closes (Reading.start source dotMatchesAny x) tokens y.state.rest := by
  obtain ⟨tokens, offset, rest, scanned, closed⟩ := exists_scanned dotMatchesAny 0 source.toList
  obtain ⟨y, tiles, rfl, rfl⟩ := scanned.tiles (x := Reading.start source dotMatchesAny x)
  refine ⟨tokens, y, tiles, ?_, tiles.closes closed⟩
  rintro before after rfl
  exact tiles.split scanned

end LongestMatch.Pattern
