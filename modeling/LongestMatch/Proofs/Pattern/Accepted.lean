import LongestMatch.Proofs.Pattern.Compiled
import LongestMatch.Proofs.Pattern.Paths

namespace LongestMatch.Pattern

open Parse (Machine Progress bind_eq_ok)

def Ahead (token : Token) (rest : List Char) (signs : List Sign) : Prop :=
  token.symbol = .endMark ∧ rest = [] ∧ signs = [] ∨
    token.symbol ≠ .endMark ∧ signs = [(token.symbol, token.value)] ∧
      Shows token.symbol signs token.value

/-- What the parser has read of the pattern spells the signs of its stack, then those that the last
reduction put together, then the sign that waits. -/
structure Follows (dotMatchesAny : Bool) (source : List Char) (m : Machine Symbol Value)
    (r : Reading) : Prop where
  steady : m.recovering = false
  option : r.dotMatchesAny = dotMatchesAny
  spells : ∃ front signs reduced ahead, source = front ++ r.rest ∧ Path m.stack signs ∧
    Spells dotMatchesAny front (signs ++ (reduced ++ ahead)) ∧
      (match m.reduced with
        | none => reduced = []
        | some token => token.symbol ∈ nonterminals ∧ Shows token.symbol reduced token.value) ∧
      match m.lookahead with
        | none => ahead = []
        | some token => Ahead token r.rest ahead

structure Takes (dotMatchesAny : Bool) (source : List Char) (m : Machine Symbol Value)
    (token : Token) (r : Reading) : Prop where
  steady : m.recovering = false
  option : r.dotMatchesAny = dotMatchesAny
  reduced : m.reduced = none
  spells : ∃ front signs taken ahead, source = front ++ r.rest ∧ Path m.stack signs ∧
    Spells dotMatchesAny front (signs ++ (taken ++ ahead)) ∧
      (match m.lookahead with
        | none => ahead = []
        | some token => Ahead token r.rest ahead) ∧
      (token.symbol ∈ nonterminals ∧ Shows token.symbol taken token.value ∨
        m.lookahead = none ∧ Ahead token r.rest taken)

variable {dotMatchesAny : Bool} {source : List Char} {m m' : Machine Symbol Value} {r : Reading}
  {x x' : Logged Reading} {token : Token} {s : Nat} {v : Value} {stack : List (Nat × Value)}

theorem Spells.append {first second : List Char} {signs more : List Sign}
    (spells : Spells dotMatchesAny first signs) (then_ : Spells dotMatchesAny second more) :
    Spells dotMatchesAny (first ++ second) (signs ++ more) := by
  induction spells with
  | nil => exact then_
  | cons lexeme _ ih =>
      rw [List.append_assoc]
      exact .cons lexeme ih

theorem Lexeme.ne_endMark {lexeme : List Char} {sign : Sign}
    (spelled : Lexeme dotMatchesAny lexeme sign) : sign.1 ≠ .endMark := by
  cases spelled with
  | @mark c symbol known =>
      unfold Symbol.sign? at known
      split at known <;> cases known <;> exact Symbol.noConfusion
  | dot _ => exact Symbol.noConfusion
  | plain _ _ _ _ => exact Symbol.noConfusion
  | escape _ => exact Symbol.noConfusion
  | hex _ _ => exact Symbol.noConfusion

theorem ahead_of_next (read : Reading.next x = .ok token x') :
    x'.state.dotMatchesAny = x.state.dotMatchesAny ∧ ∃ lexeme signs,
      x.state.rest = lexeme ++ x'.state.rest ∧ Spells x.state.dotMatchesAny lexeme signs ∧
        Ahead token x'.state.rest signs := by
  obtain ⟨r, log⟩ := x
  cases got : readToken r.dotMatchesAny r.offset r.rest with
  | error e =>
      obtain ⟨_, _, current, read⟩ := bind_eq_ok.1 read
      cases current
      obtain ⟨_, _, changed, read⟩ := bind_eq_ok.1 read
      cases changed
      simp only [got] at read
      cases read
  | ok result =>
      obtain ⟨token', rest⟩ := result
      rw [next_eq got] at read
      cases read
      refine ⟨rfl, ?_⟩
      by_cases done : r.rest = []
      · rw [done] at got
        cases got
        exact ⟨[], [], done, .nil, .inl ⟨rfl, rfl, rfl⟩⟩
      · obtain ⟨lexeme, text, spelled⟩ := exists_lexeme done got
        refine ⟨lexeme, _, text, ?_, .inr ⟨spelled.ne_endMark, rfl, spelled.shows⟩⟩
        simpa using Spells.cons spelled .nil

theorem Follows.select (follows : Follows dotMatchesAny source m x.state)
    (select : m.select Reading.client x = .ok (token, m') x') :
    m'.stack = m.stack ∧ Takes dotMatchesAny source m' token x'.state := by
  obtain ⟨steady, option, front, signs, reduced, ahead, text, path, spells, shown, waiting⟩ := follows
  rw [Machine.select] at select
  cases pending : m.reduced with
  | some token =>
      simp only [pending] at select shown
      cases select
      exact ⟨rfl, steady, option, rfl, front, signs, reduced, ahead, text, path, spells, waiting,
        .inl shown⟩
  | none =>
      simp only [pending] at select shown
      subst shown
      cases next : m.lookahead with
      | some token =>
          simp only [next] at select waiting
          cases select
          refine ⟨rfl, steady, option, rfl, front, signs, ahead, [], text, path, ?_, rfl,
            .inr ⟨rfl, waiting⟩⟩
          rwa [List.append_nil]
      | none =>
          simp only [next] at select waiting
          obtain ⟨token, y, read, select⟩ := bind_eq_ok.1 select
          cases select
          subst waiting
          obtain ⟨option', lexeme, taken, rest, spelled, ahead⟩ := ahead_of_next read
          refine ⟨rfl, steady, option'.trans option, pending, front ++ lexeme, signs, taken, [],
            ?_, path, ?_, ?_, .inr ⟨next, ahead⟩⟩
          · rw [text, rest, List.append_assoc]
          · rw [option] at spelled
            simpa using spells.append spelled
          · simp only [next]

theorem Takes.shift {s' : Nat} (takes : Takes dotMatchesAny source m token r)
    (top : m.stack = (s, v) :: stack)
    (action : table.action? s token.symbol = some (.shift s')) :
    Follows dotMatchesAny source { m.settle token.symbol with
      stack := (s', token.value) :: (m.settle token.symbol).stack } r := by
  obtain ⟨steady, option, reduced, front, signs, taken, ahead, text, path, spells, waiting, origin⟩ :=
    takes
  have shown : Shows token.symbol taken token.value := by
    obtain ⟨_, shown⟩ | ⟨_, ⟨final, _⟩ | ⟨_, _, shown⟩⟩ := origin
    · exact shown
    · exact (not_shift_endMark (final ▸ action)).elim
    · exact shown
  refine ⟨Machine.recovering_settle steady _, option, front, signs ++ taken, [], ahead, text, ?_, ?_, ?_, ?_⟩
  · rw [top] at path
    simp only [Machine.stack_settle, top]
    exact .shift path action shown
  · simpa using spells
  · simp only [Machine.reduced_settle, reduced]
  · simp only [Machine.lookahead_settle]
    exact waiting

theorem production_of_table {p length : Nat} {head : Symbol}
    (known : table.heads[p]? = some head) (size : table.lengths[p]? = some length) :
    productions[p]? = some (head, length) := by
  simp only [table, List.getElem?_toArray, List.getElem?_map, Option.map_eq_some_iff] at known size
  obtain ⟨⟨_, _⟩, found, rfl⟩ := known
  obtain ⟨_, found', rfl⟩ := size
  rw [found] at found' ⊢
  cases found'
  rfl

theorem Takes.reduce {p : Nat} {progress : Progress Symbol Value Failure}
    (takes : Takes dotMatchesAny source m token x.state) (top : m.stack = (s, v) :: stack)
    (action : table.action? s token.symbol = some (.reduce p))
    (moved : (m.settle token.symbol).reduce table Reading.client s p token x = .ok progress x') :
    (∀ m', progress = .running m' → Follows dotMatchesAny source m' x'.state) ∧
      ∀ value, progress = .ended (.accepted value) →
        ∃ b : Body, Spells dotMatchesAny source b.signs := by
  obtain ⟨steady, option, _, front, signs, taken, ahead, text, path, spells, waiting, origin⟩ := takes
  obtain ⟨_, noHead, accepting⟩ := reduce_fits action
  obtain ⟨empty, waits⟩ := origin.resolve_left fun shown => noHead shown.1
  rw [empty] at waiting
  subst waiting
  obtain ⟨verdict, rfl, other⟩ | ⟨head, length, entry, rest, value, known, size, shape, built, rfl⟩ :=
    Machine.reduce_cases moved
  · exact ⟨fun _ => (by cases ·), fun value equal => (other value (by injection equal)).elim⟩
  rw [Machine.stack_settle, top] at shape built
  rw [top] at path
  by_cases whole : p = 0
  · obtain ⟨rfl, final⟩ := accepting whole
    rw [if_pos whole]
    refine ⟨fun _ => (by cases ·), fun _ _ => ?_⟩
    obtain ⟨_, done, rfl⟩ := waits.resolve_right fun more => more.1 final
    obtain ⟨b, rfl⟩ := path.whole
    refine ⟨b, ?_⟩
    rw [text, done]
    simpa using spells
  · rw [if_neg whole]
    refine ⟨fun _ equal => ?_, fun _ equal => by cases equal⟩
    cases equal
    have production := production_of_table known size
    obtain ⟨g, log, combined, rfl⟩ := exists_of_reduce built
    obtain ⟨front', more, rfl, below, shown⟩ := path.reduce action production whole combined
    refine ⟨Machine.recovering_settle steady _, option, front, front', more, taken, text, ?_, ?_,
      ⟨(production_fits production).2 whole, shown⟩, waits⟩
    · rw [← shape]
      exact below
    · simpa using spells

theorem Follows.step {progress : Progress Symbol Value Failure}
    (follows : Follows dotMatchesAny source m x.state)
    (moved : m.step table Reading.client x = .ok progress x') :
    (∀ m', progress = .running m' → m'.diagnostics = [] →
        Follows dotMatchesAny source m' x'.state) ∧
      ∀ value, progress = .ended (.accepted value) →
        ∃ b : Body, Spells dotMatchesAny source b.signs := by
  obtain ⟨_, rfl⟩ | ⟨s, v, stack, token, m', y, top, select, moved⟩ := Machine.step_cases moved
  · exact ⟨fun _ => (by cases ·), fun _ equal => by cases equal⟩
  obtain ⟨stack', takes⟩ := follows.select select
  rw [← stack'] at top
  obtain ⟨s', action, rfl, rfl⟩ | ⟨p, action, moved⟩ | ⟨_, moved⟩ := moved
  · refine ⟨fun _ equal _ => ?_, fun _ equal => by cases equal⟩
    cases equal
    exact takes.shift top action
  · obtain ⟨running, ended⟩ := takes.reduce top action moved
    exact ⟨fun m' equal _ => running m' equal, ended⟩
  · obtain ⟨verdict, rfl, other⟩ | ⟨_, rfl, more | ⟨recovering, _⟩⟩ := Machine.recover_cases moved
    · exact ⟨fun _ => (by cases ·), fun value equal => (other value (by injection equal)).elim⟩
    · refine ⟨fun _ equal fine => ?_, fun _ equal => by cases equal⟩
      cases equal
      exact (more fine).elim
    · rw [takes.steady] at recovering
      cases recovering

theorem exists_spells_of_run {bound : Nat} {value : Value}
    (sound : m.diagnostics = [] → Follows dotMatchesAny source m x.state)
    (accepted : Parse.run table Reading.client bound m x = some (.accepted value, x')) :
    ∃ b : Body, Spells dotMatchesAny source b.signs := by
  induction bound generalizing m x with
  | zero => cases accepted
  | succ bound ih =>
      rw [Parse.run] at accepted
      split at accepted
      · rename_i m' y moved
        refine ih (fun fine' => ?_) accepted
        by_cases fine : m.diagnostics = []
        · exact ((sound fine).step moved).1 m' rfl fine'
        · exact ((Machine.step_diagnosed fine moved).1 m' rfl fine').elim
      · rename_i verdict y moved
        cases accepted
        by_cases fine : m.diagnostics = []
        · exact ((sound fine).step moved).2 value rfl
        · exact ((Machine.step_diagnosed fine moved).2 value rfl).elim
      · cases accepted

theorem exists_spelled {text : String} {f : Fragment} {y y' : Logged Graph}
    (compiled : compile text dotMatchesAny y = .ok f y') :
    ∃ b : Body, b.Spelled dotMatchesAny text := by
  obtain ⟨_, _, before, compiled⟩ := bind_eq_ok.1 compiled
  cases before
  obtain ⟨value, z, parsed, _⟩ := bind_eq_ok.1 compiled
  simp only [Recorded.via] at parsed
  split at parsed
  · rename_i accepted
    rw [Reading.parse] at accepted
    split at accepted
    · rename_i run
      refine exists_spells_of_run (fun _ => ⟨rfl, rfl, [], [], [], [], rfl, .start _, .nil, rfl, rfl⟩) run
    all_goals cases accepted
  · cases parsed

end LongestMatch.Pattern
