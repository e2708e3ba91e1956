import Mathlib.Algebra.GroupWithZero.Nat
import LongestMatch.Pattern.Compile
import LongestMatch.Proofs.Fragment.Copy
import LongestMatch.Proofs.Parse.Step
import LongestMatch.Proofs.Pattern.Spelling

/-!
# Moves of the pattern parser

A position of the parser is its stack, the signs that it has not shifted, and the graph built so far.
A shift and a reduction lead from one position to another. Every state has a weight, and a reduction
takes more weight from the stack than it puts back, so that the number of moves is bounded by the
weight and the signs.
-/

namespace LongestMatch.Pattern

open Parse (Machine)
open Build

structure Position where
  stack : List (Nat × Value)
  signs : List Sign
  graph : Graph

def upcoming (signs : List Sign) : Sign := signs.headD (mark .endMark)

def stateWeight (state : Nat) : Nat :=
  if state ∈ [4, 13, 17, 33] then 3 else if state ∈ [2, 12, 14, 21] then 2 else 1

theorem stateWeight_pos (state : Nat) : 0 < stateWeight state := by
  rw [stateWeight]
  split
  · decide
  · split <;> decide

def stackWeight (stack : List (Nat × Value)) : Nat := (stack.map fun entry => stateWeight entry.1).sum

theorem next_eq {r : Reading} {token : Token} {rest : List Char}
    (read : readToken r.dotMatchesAny r.offset r.rest = .ok (token, rest)) (log : Array Event) :
    Reading.next ⟨r, log⟩ = .ok token ⟨{ r with
      rest, offset := r.offset + token.text.utf8ByteSize, tokenOffset := r.offset }, log⟩ := by
  refine (Parse.bind_of_ok rfl).trans ((Parse.bind_of_ok rfl).trans ?_)
  rw [read]
  rfl

theorem next_error {r : Reading} {e : Error}
    (read : readToken r.dotMatchesAny r.offset r.rest = .error e) (log : Array Event) :
    Reading.next ⟨r, log⟩ = .error (.error e) ⟨{ r with tokenOffset := r.offset }, log⟩ := by
  refine (Parse.bind_of_ok rfl).trans ((Parse.bind_of_ok rfl).trans ?_)
  rw [read]
  rfl

theorem select_next {m : Machine Symbol Value} {x : Logged Reading} {dotMatchesAny : Bool}
    {token : Token} {rest : List Char} (reduced : m.reduced = none) (lookahead : m.lookahead = none)
    (option : x.state.dotMatchesAny = dotMatchesAny)
    (read : readToken dotMatchesAny x.state.offset x.state.rest = .ok (token, rest)) :
    m.select Reading.client x = .ok (token, m) ⟨{ x.state with
      rest, offset := x.state.offset + token.text.utf8ByteSize, tokenOffset := x.state.offset }, x.log⟩ := by
  rw [← option] at read
  rw [Machine.select, reduced, lookahead]
  exact Parse.bind_of_ok (next_eq read x.log)

theorem reduce_eq {production : Nat} {values : List Value} {value : Value} {r : Reading}
    {g' : Graph} {log log' : Array Event}
    (built : combine production values ⟨r.graph, log⟩ = .ok value ⟨g', log'⟩) :
    Reading.reduce production values ⟨r, log⟩ = .ok value ⟨{ r with graph := g' }, log'⟩ := by
  simp only [Reading.reduce, Recorded.via, Reading.focus, built]

theorem exists_of_reduce {production : Nat} {values : List Value} {value : Value}
    {x x' : Logged Reading} (reduced : Reading.reduce production values x = .ok value x') :
    ∃ g log, combine production values ⟨x.state.graph, x.log⟩ = .ok value ⟨g, log⟩ ∧
      x' = ⟨{ x.state with graph := g }, log⟩ := by
  simp only [Reading.reduce, Recorded.via, Reading.focus] at reduced
  split at reduced
  · rename_i built
    cases reduced
    exact ⟨_, _, built, rfl⟩
  · cases reduced

theorem reduce_error {production : Nat} {values : List Value} {failure : Failure} {r : Reading}
    {g' : Graph} {log log' : Array Event}
    (failed : combine production values ⟨r.graph, log⟩ = .error failure ⟨g', log'⟩) :
    Reading.reduce production values ⟨r, log⟩ = .error failure ⟨{ r with graph := g' }, log'⟩ := by
  simp only [Reading.reduce, Recorded.via, Reading.focus, failed]

namespace Position

structure At (dotMatchesAny : Bool) (p : Position) (m : Machine Symbol Value) (r : Reading) :
    Prop where
  stack : m.stack = p.stack
  reduced : m.reduced = none
  fine : m.diagnostics = []
  option : r.dotMatchesAny = dotMatchesAny
  graph : r.graph = p.graph
  waiting : match m.lookahead with
    | none => Spells dotMatchesAny r.rest p.signs
    | some token => (token.symbol, token.value) = upcoming p.signs ∧
        Spells dotMatchesAny r.rest p.signs.tail

/-- From every parser at the first position the run goes on as from one at the second position,
after a number of moves that their weights and signs bound. -/
def Goes (dotMatchesAny : Bool) (p q : Position) : Prop :=
  ∃ moves, moves + 2 * stackWeight q.stack + 7 * q.signs.length ≤
      2 * stackWeight p.stack + 7 * p.signs.length ∧
    ∀ {m r}, p.At dotMatchesAny m r → ∀ log, ∃ m' r' log', q.At dotMatchesAny m' r' ∧
      ∀ bound, Parse.run table Reading.client (bound + moves) m ⟨r, log⟩ =
        Parse.run table Reading.client bound m' ⟨r', log'⟩

variable {dotMatchesAny : Bool} {p q q' : Position} {m : Machine Symbol Value} {r : Reading}

theorem Goes.refl (p : Position) : Goes dotMatchesAny p p :=
  ⟨0, by omega, fun at_ log => ⟨_, _, log, at_, fun _ => rfl⟩⟩

theorem Goes.trans (first : Goes dotMatchesAny p q) (second : Goes dotMatchesAny q q') :
    Goes dotMatchesAny p q' := by
  obtain ⟨n, boundN, first⟩ := first
  obtain ⟨k, boundK, second⟩ := second
  refine ⟨k + n, by omega, fun at_ log => ?_⟩
  obtain ⟨m', r', log', at', first⟩ := first at_ log
  obtain ⟨m'', r'', log'', at'', second⟩ := second at' log'
  refine ⟨m'', r'', log'', at'', fun bound => ?_⟩
  rw [← Nat.add_assoc, first, second]

theorem At.select (at_ : p.At dotMatchesAny m r) (log : Array Event) :
    ∃ token m' r', m.select Reading.client ⟨r, log⟩ = .ok (token, m') ⟨r', log⟩ ∧
      (token.symbol, token.value) = upcoming p.signs ∧ m'.stack = p.stack ∧ m'.reduced = none ∧
        m'.lookahead = none ∧ m'.diagnostics = [] ∧ r'.dotMatchesAny = dotMatchesAny ∧
          r'.graph = p.graph ∧ Spells dotMatchesAny r'.rest p.signs.tail := by
  obtain ⟨stack, reduced, fine, option, graph, waiting⟩ := at_
  cases ahead : m.lookahead with
  | some token =>
      rw [ahead] at waiting
      refine ⟨token, { m with lookahead := none }, r, ?_, waiting.1, stack, reduced, rfl, fine,
        option, graph, waiting.2⟩
      rw [Machine.select, reduced, ahead]
      rfl
  | none =>
      rw [ahead] at waiting
      have next := @select_next m ⟨r, log⟩ dotMatchesAny
      simp only [reduced, ahead, option, true_implies] at next
      cases signs : p.signs with
      | nil =>
          rw [signs] at waiting
          generalize text : r.rest = rest at waiting next
          cases waiting
          exact ⟨_, m, _, next rfl, rfl, stack, reduced, ahead, fine, rfl, graph, .nil⟩
      | cons sign signs =>
          rw [signs] at waiting
          generalize text : r.rest = rest at waiting next
          cases waiting with
          | cons lexeme rest =>
              exact ⟨_, m, _, next (lexeme.readToken _ _), rfl, stack, reduced, ahead, fine, rfl,
                graph, rest⟩

theorem goes_shift {s s' : Nat} {v : Value} {stack : List (Nat × Value)} (sign : Sign)
    {signs : List Sign} {g : Graph} (action : table.action? s sign.1 = some (.shift s')) :
    Goes dotMatchesAny ⟨(s, v) :: stack, sign :: signs, g⟩
      ⟨(s', sign.2) :: (s, v) :: stack, signs, g⟩ := by
  refine ⟨1, ?_, fun {m r} at_ log => ?_⟩
  · have light : stateWeight s' ≤ 3 := by
      rw [stateWeight]
      split
      · exact Nat.le_refl _
      · split <;> decide
    simp only [stackWeight, List.map_cons, List.sum_cons, List.length_cons]
    omega
  · obtain ⟨token, m', r', select, symbol, stack', reduced, lookahead, fine, option, graph, spells⟩ :=
      at_.select log
    obtain ⟨symbol, value⟩ := Prod.mk.inj symbol
    rw [← symbol] at action
    let after : Machine Symbol Value := { m'.settle token.symbol with
      stack := (s', token.value) :: (m'.settle token.symbol).stack }
    have at' : At dotMatchesAny ⟨(s', sign.2) :: (s, v) :: stack, signs, g⟩ after r' := by
      refine ⟨?_, ?_, ?_, option, graph, ?_⟩
      · simp only [after, Machine.stack_settle, stack', value]
      · simp only [after, Machine.reduced_settle, reduced]
      · simp only [after, Machine.diagnostics_settle, fine]
      · simp only [after, Machine.lookahead_settle, lookahead]
        exact spells
    exact ⟨after, r', log.push (.parsing (.shift s token.symbol.name s')), at',
      Parse.run_running (Machine.step_shift at_.stack select action)⟩

theorem goes_reduce (popped : List (Nat × Value)) (production : Nat) {entry : Nat × Value}
    {stack : List (Nat × Value)} {s s' : Nat} {v value : Value} {head : Symbol} {signs : List Sign} {g g' : Graph}
    (action : table.action? s (upcoming signs).1 = some (.reduce production))
    (known : productions[production]? = some (head, popped.length + 1)) (other : production ≠ 0)
    (builds : Yields (combine production (((s, v) :: popped).map Prod.snd).reverse) g value g')
    (goto : table.action? entry.1 head = some (.shift s'))
    (lighter : stateWeight s' < stackWeight ((s, v) :: popped)) :
    Goes dotMatchesAny ⟨(s, v) :: popped ++ entry :: stack, signs, g⟩
      ⟨(s', value) :: entry :: stack, signs, g'⟩ := by
  refine ⟨2, ?_, fun {m r} at_ log => ?_⟩
  · simp only [stackWeight, List.map_cons, List.sum_cons, List.map_append, List.sum_append,
      List.cons_append] at lighter ⊢
    omega
  · obtain ⟨token, m', r', select, symbol, stack', reduced, lookahead, fine, option, graph, spells⟩ :=
      at_.select log
    have symbol' : token.symbol = (upcoming signs).1 := congrArg Prod.fst symbol
    rw [← symbol'] at action
    have head' : table.heads[production]? = some head := by
      simp [table, known]
    have length' : table.lengths[production]? = some ((s, v) :: popped).length := by
      simp [table, known]
    let log₁ := log.push (.parsing (.reduce s production head.name))
    obtain ⟨log₂, built⟩ := builds log₁
    rw [← show r'.graph = g from graph] at built
    -- The machine between the reduction and the shift of the head.
    let between : Machine Symbol Value := { m'.settle token.symbol with
      stack := entry :: stack
      reduced := some ⟨head, value, ""⟩
      lookahead := some token }
    have first : m.step table Reading.client ⟨r, log⟩ =
        .ok (.running between) ⟨{ r' with graph := g' }, log₂⟩ := by
      rw [Machine.step_reduce at_.stack select action, Machine.reduce_eq ((s, v) :: popped)
        (by rw [Machine.stack_settle, stack']) head' length' (reduce_eq built), if_neg other]
    let after : Machine Symbol Value := { between.settle head with
      stack := (s', value) :: entry :: stack, reduced := none }
    have goto' : table.action? entry.1 (⟨head, value, ""⟩ : Token).symbol = some (.shift s') := goto
    have second := Machine.step_shift (c := Reading.client) (m := between) (v := entry.2)
      (x := (⟨{ r' with graph := g' }, log₂⟩ : Logged Reading)) rfl rfl goto'
    refine ⟨_, { r' with graph := g' }, log₂.push (.parsing (.shift entry.1 head.name s')), ?_,
      fun bound => (Parse.run_running first (bound + 1)).trans (Parse.run_running second bound)⟩
    refine ⟨?_, ?_, ?_, option, rfl, ?_⟩
    · simp [between]
    · simp
    · simp [between, fine]
    · simp only [Machine.lookahead_settle, between]
      exact ⟨symbol, spells⟩

theorem At.accepts {v v₀ : Value} {g : Graph} (at_ : At dotMatchesAny ⟨[(1, v), (0, v₀)], [], g⟩ m r)
    (log : Array Event) (bound : Nat) : ∃ r' log',
      Parse.run table Reading.client (bound + 1) m ⟨r, log⟩ = some (.accepted v, ⟨r', log'⟩) ∧
        r'.graph = g := by
  obtain ⟨token, m', r', select, symbol, stack', _, _, fine, _, graph, _⟩ := at_.select log
  have symbol' : token.symbol = .endMark := congrArg Prod.fst symbol
  have action : table.action? 1 token.symbol = some (.reduce 0) := by
    rw [symbol']
    rfl
  refine ⟨r', log.push (.parsing (.reduce 1 0 Symbol.pattern.name)), Parse.run_ended ?_ bound, graph⟩
  rw [Machine.step_reduce at_.stack select action, Machine.reduce_eq [(1, v)]
    (show _ = [(1, v)] ++ (0, v₀) :: [] by rw [Machine.stack_settle, stack']; rfl)
    (show table.heads[0]? = some .pattern from rfl) rfl
    (show Reading.client.reduce 0 [v] _ = .ok v ⟨r', log.push (.parsing (.reduce 1 0 Symbol.pattern.name))⟩ from rfl)]
  rw [if_pos rfl, Machine.diagnostics_settle, fine]
  rfl

end Position

end LongestMatch.Pattern
