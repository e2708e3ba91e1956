import LongestMatch.Proofs.Parse.Verdict

/-!
# States and values on stacks of their own

A parser can keep its states and the values of its symbols on two stacks. It then counts entries, cuts
the stacks at the places that it has counted, and looks productions up by their numbers, and each of
these can go wrong (`Slip`). With a table that has been read none of them ever does: the two stacks stay
level, and the run is that of the parser with pairs on one stack (`run_twin`).
-/

namespace LongestMatch.Parse

inductive Slip where
  | unknownProduction (production : Nat)
  | underflow (height less : Nat)
  | cutBeyond (height place : Nat)
  deriving DecidableEq, Repr

namespace Slip

variable {α S : Type}

def head (t : Table S) (production : Nat) : Except Slip S :=
  match t.heads[production]? with
  | some head => .ok head
  | none => .error (.unknownProduction production)

def length (t : Table S) (production : Nat) : Except Slip Nat :=
  match t.lengths[production]? with
  | some length => .ok length
  | none => .error (.unknownProduction production)

def minus (height less : Nat) : Except Slip Nat :=
  if less ≤ height then .ok (height - less) else .error (.underflow height less)

def cut (stack : List α) (place : Nat) : Except Slip (List α × List α) :=
  if place ≤ stack.length then
    .ok (stack.take (stack.length - place), stack.drop (stack.length - place))
  else .error (.cutBeyond stack.length place)

theorem minus_of_le {height less : Nat} (le : less ≤ height) :
    minus height less = .ok (height - less) := if_pos le

theorem cut_sub {stack : List α} {less : Nat} (le : less ≤ stack.length) :
    cut stack (stack.length - less) = .ok (stack.take less, stack.drop less) := by
  rw [cut, if_pos (Nat.sub_le ..), Nat.sub_sub_self le]

end Slip

structure Twin (S V : Type) where
  states : List Nat
  values : List V
  reduced : Option (Token S V) := none
  lookahead : Option (Token S V) := none
  recovering : Bool := false
  diagnostics : List Diagnostic := []

namespace Twin

variable {S V ε σ α β : Type}

inductive Progress (S V ε : Type) where
  | running (machine : Twin S V)
  | ended (verdict : Verdict V ε)

def ask (work : EStateM ε σ α) : EStateM (Slip ⊕ ε) σ α := work.adaptExcept .inr

def check (result : Except Slip α) : EStateM (Slip ⊕ ε) σ α := ofExcept (result.mapError .inl)

def initial (blank : V) : Twin S V := { states := [0], values := [blank] }

def rejection (m : Twin S V) : Verdict V ε :=
  .rejected (if m.diagnostics.isEmpty then [.unfinished] else m.diagnostics)

def select (c : Client S V ε σ) (m : Twin S V) : EStateM (Slip ⊕ ε) σ (Token S V × Twin S V) :=
  match m.reduced, m.lookahead with
  | some symbol, _ => return (symbol, { m with reduced := none })
  | none, some symbol => return (symbol, { m with lookahead := none })
  | none, none => return (← ask c.next, m)

def diagnose (c : Client S V ε σ) (m : Twin S V) (d : Diagnostic) :
    EStateM (Slip ⊕ ε) σ (Twin S V) := do
  modify (c.report d)
  return { m with diagnostics := m.diagnostics ++ [d] }

variable [Alphabet S]

def settle (m : Twin S V) (symbol : S) : Twin S V :=
  if symbol = Alphabet.error then m else { m with recovering := false }

/-- Replaces the right-hand side of a production by its head. The number of values to keep and the
number of states to keep are counted apart. -/
def reduce (t : Table S) (c : Client S V ε σ) (m : Twin S V) (state production : Nat)
    (symbol : Token S V) : EStateM (Slip ⊕ ε) σ (Progress S V ε) := do
  let length ← check (Slip.length t production)
  if m.states.length ≤ length then
    let m ← m.diagnose c (.overdrawn production length m.states.length)
    return .ended m.rejection
  else
    let place ← check (Slip.minus m.values.length length)
    let (popped, values) ← check (Slip.cut m.values place)
    let place ← check (Slip.minus m.states.length length)
    let (_, states) ← check (Slip.cut m.states place)
    let head ← check (Slip.head t production)
    modify (c.observe (.reduce state production (Alphabet.name head)))
    let value ← ask (c.reduce production popped.reverse)
    if production = 0 then
      return .ended (if m.diagnostics.isEmpty then .accepted value else m.rejection)
    else
      return .running { m with
        states
        values
        reduced := some ⟨head, value, ""⟩
        lookahead := some symbol }

def unwind (t : Table S) : List Nat → List V → List Nat × List V
  | [], values => ([], values)
  | state :: states, values =>
    if (t.action? state Alphabet.error).isSome then (state :: states, values)
    else unwind t states values.tail

def recover (t : Table S) (c : Client S V ε σ) (m : Twin S V) (state : Nat) (symbol : Token S V) :
    EStateM (Slip ⊕ ε) σ (Progress S V ε) := do
  if m.recovering then
    if symbol.symbol = Alphabet.endMark then
      return .ended m.rejection
    else
      modify (c.observe (.discard state (Alphabet.name symbol.symbol)))
      return .running m
  else
    let m ← m.diagnose c (.unexpected (Alphabet.name symbol.symbol) symbol.text)
    if symbol.symbol = Alphabet.endMark then
      return .ended m.rejection
    else
      match unwind t m.states m.values with
      | ([], _) => return .ended m.rejection
      | (states, values) =>
        return .running { m with
          states
          values
          reduced := some ⟨Alphabet.error, c.blank, ""⟩
          lookahead := some symbol
          recovering := true }

def step (t : Table S) (c : Client S V ε σ) (m : Twin S V) :
    EStateM (Slip ⊕ ε) σ (Progress S V ε) := do
  match m.states with
  | [] => return .ended m.rejection
  | state :: _ =>
    let (symbol, m) ← m.select c
    match t.action? state symbol.symbol with
    | some (.shift target) =>
      modify (c.observe (.shift state (Alphabet.name symbol.symbol) target))
      let m := m.settle symbol.symbol
      return .running { m with states := target :: m.states, values := symbol.value :: m.values }
    | some (.reduce production) => (m.settle symbol.symbol).reduce t c state production symbol
    | none => m.recover t c state symbol

def run (t : Table S) (c : Client S V ε σ) (bound : Nat) (m : Twin S V) (x : σ) :
    Option (Except Slip (Verdict V ε) × σ) :=
  match bound with
  | 0 => none
  | bound + 1 =>
    match m.step t c x with
    | .ok (.running m) x => run t c bound m x
    | .ok (.ended verdict) x => some (.ok verdict, x)
    | .error (.inl slip) x => some (.error slip, x)
    | .error (.inr failure) x => some (.ok (.aborted failure), x)

def parse (t : Table S) (c : Client S V ε σ) (bound : Nat) (x : σ) :
    Option (Except Slip (Verdict V ε) × σ) :=
  run t c bound (.initial c.blank) x

inductive Reached (t : Table S) (c : Client S V ε σ) (x : σ) : Twin S V → σ → Prop
  | start : Reached t c x (.initial c.blank) x
  | step {m m' : Twin S V} {y z : σ} : Reached t c x m y →
      m.step t c y = .ok (.running m') z → Reached t c x m' z

end Twin

variable {S V ε σ α β : Type}

def Machine.twin (m : Machine S V) : Twin S V where
  states := m.stack.map Prod.fst
  values := m.stack.map Prod.snd
  reduced := m.reduced
  lookahead := m.lookahead
  recovering := m.recovering
  diagnostics := m.diagnostics

def Progress.twin : Progress S V ε → Twin.Progress S V ε
  | .running m => .running m.twin
  | .ended verdict => .ended verdict

namespace Twin

theorem ask_pure (a : α) : (ask (pure a) : EStateM (Slip ⊕ ε) σ α) = pure a := rfl

theorem ask_bind (work : EStateM ε σ α) (next : α → EStateM ε σ β) :
    ask (work >>= next) = ask work >>= fun a => ask (next a) := by
  funext x
  show EStateM.adaptExcept _ (EStateM.bind _ _) x = EStateM.bind (EStateM.adaptExcept _ _) _ x
  simp only [EStateM.adaptExcept, EStateM.bind]
  cases work x <;> rfl

theorem ask_modify (f : σ → σ) : (ask (modify f) : EStateM (Slip ⊕ ε) σ PUnit) = modify f := rfl

theorem check_ok_bind (a : α) (next : α → EStateM (Slip ⊕ ε) σ β) :
    (check (.ok a) >>= next) = next a := rfl

variable {c : Client S V ε σ}

theorem select_twin (m : Machine S V) :
    m.twin.select c = ask (do let (symbol, m) ← m.select c; return (symbol, m.twin)) := by
  obtain ⟨stack, reduced, lookahead, recovering, diagnostics⟩ := m
  cases reduced with
  | some symbol => rfl
  | none =>
      cases lookahead with
      | some symbol => rfl
      | none =>
          simp only [select, Machine.select, Machine.twin, ask_bind, ask_pure, bind_assoc, pure_bind]

theorem diagnose_twin (m : Machine S V) (d : Diagnostic) :
    m.twin.diagnose c d = ask (do return (← m.diagnose c d).twin) := rfl

variable [Alphabet S] {t : Table S}

theorem settle_twin (m : Machine S V) (symbol : S) : m.twin.settle symbol = (m.settle symbol).twin := by
  unfold settle Machine.settle
  split <;> rfl

theorem unwind_map (stack : List (Nat × V)) :
    unwind t (stack.map Prod.fst) (stack.map Prod.snd) =
      let rest := stack.dropWhile fun entry => (t.action? entry.1 Alphabet.error).isNone
      (rest.map Prod.fst, rest.map Prod.snd) := by
  induction stack with
  | nil => rfl
  | cons entry stack ih =>
      rw [List.map_cons, List.map_cons, unwind, List.tail_cons, List.dropWhile_cons]
      cases action : t.action? entry.1 Alphabet.error with
      | none => simpa using ih
      | some a => simp

theorem reduce_twin (m : Machine S V) {production : Nat} (known : production < t.heads.size)
    (sized : production < t.lengths.size) (state : Nat) (symbol : Token S V) :
    m.twin.reduce t c state production symbol =
      ask (do return (← m.reduce t c state production symbol).twin) := by
  have length : Slip.length t production = .ok t.lengths[production] := by
    rw [Slip.length, Array.getElem?_eq_getElem sized]
  have head : Slip.head t production = .ok t.heads[production] := by
    rw [Slip.head, Array.getElem?_eq_getElem known]
  rw [reduce, length, check_ok_bind, Machine.reduce, Array.getElem?_eq_getElem known,
    Array.getElem?_eq_getElem sized]
  dsimp only
  generalize t.lengths[production] = length
  have heights : m.twin.states.length = m.stack.length ∧ m.twin.values.length = m.stack.length :=
    ⟨List.length_map .., List.length_map ..⟩
  cases rest : m.stack.drop length with
  | nil =>
      rw [if_pos (heights.1.trans_le (List.drop_eq_nil_iff.1 rest)), heights.1, diagnose_twin]
      simp only [ask_bind, ask_pure, bind_assoc, pure_bind]
      rfl
  | cons entry below =>
      have high : length < m.stack.length := by
        by_contra low
        rw [List.drop_eq_nil_of_le (Nat.not_lt.1 low)] at rest
        cases rest
      rw [if_neg (by omega), Slip.minus_of_le (by omega), check_ok_bind, Slip.cut_sub (by omega),
        check_ok_bind, Slip.minus_of_le (by omega), check_ok_bind]
      dsimp only
      rw [Slip.cut_sub (by omega), check_ok_bind, head, check_ok_bind]
      have popped : m.twin.values.take length = (m.stack.take length).map Prod.snd := by
        rw [Machine.twin, List.map_take]
      have states : m.twin.states.drop length = (entry :: below).map Prod.fst := by
        rw [Machine.twin, ← List.map_drop, rest]
      have values : m.twin.values.drop length = (entry :: below).map Prod.snd := by
        rw [Machine.twin, ← List.map_drop, rest]
      rw [popped, states, values]
      simp only [ask_bind, ask_pure, ask_modify, bind_assoc]
      split <;> rfl

theorem recover_twin (m : Machine S V) (state : Nat) (symbol : Token S V) :
    m.twin.recover t c state symbol = ask (do return (← m.recover t c state symbol).twin) := by
  rw [recover, Machine.recover]
  have same : m.twin.recovering = m.recovering := rfl
  rw [same]
  split
  · split
    · rfl
    · simp only [ask_bind, ask_pure, ask_modify, bind_assoc]
      rfl
  · rw [diagnose_twin]
    simp only [ask_bind, ask_pure, bind_assoc, pure_bind]
    congr 1
    funext m
    split
    · rfl
    · have unwound := unwind_map (t := t) m.stack
      rw [show m.twin.states = m.stack.map Prod.fst from rfl,
        show m.twin.values = m.stack.map Prod.snd from rfl, unwound]
      cases m.stack.dropWhile fun entry => (t.action? entry.1 Alphabet.error).isNone <;> rfl

theorem step_twin (complete : t.Complete) (m : Machine S V) :
    m.twin.step t c = ask (do return (← m.step t c).twin) := by
  rw [step, Machine.step]
  have states : m.twin.states = m.stack.map Prod.fst := rfl
  rw [states]
  cases m.stack with
  | nil => rfl
  | cons entry stack =>
      rw [List.map_cons, select_twin]
      simp only [ask_bind, ask_pure, bind_assoc, pure_bind]
      congr 1
      funext ⟨symbol, m⟩
      dsimp only
      cases action : t.action? entry.1 symbol.symbol with
      | none =>
          simp only [recover_twin, ask_bind, ask_pure]
      | some action' =>
          cases action' with
          | shift target =>
              simp only [settle_twin, ask_bind, ask_pure, ask_modify, bind_assoc, pure_bind]
              rfl
          | reduce p =>
              have known : p < t.heads.size := complete.inRange _ _ _ action
              simp only [settle_twin, reduce_twin _ known (known.trans_eq complete.lengths.symm),
                ask_bind, ask_pure]

theorem step_twin_ok (complete : t.Complete) {m : Machine S V} {progress : Parse.Progress S V ε} {y z : σ}
    (moved : m.step t c y = .ok progress z) : m.twin.step t c y = .ok progress.twin z := by
  rw [step_twin complete]
  show EStateM.adaptExcept _ (EStateM.bind _ _) y = _
  rw [EStateM.adaptExcept, EStateM.bind, moved]
  rfl

theorem step_twin_error (complete : t.Complete) {m : Machine S V} {failure : ε} {y z : σ}
    (moved : m.step t c y = .error failure z) : m.twin.step t c y = .error (.inr failure) z := by
  rw [step_twin complete]
  show EStateM.adaptExcept _ (EStateM.bind _ _) y = _
  rw [EStateM.adaptExcept, EStateM.bind, moved]

theorem run_twin (complete : t.Complete) (bound : Nat) (m : Machine S V) (y : σ) :
    run t c bound m.twin y =
      (Parse.run t c bound m y).map fun (verdict, z) => (.ok verdict, z) := by
  induction bound generalizing m y with
  | zero => rfl
  | succ bound ih =>
      rw [run, Parse.run]
      cases moved : m.step t c y with
      | error failure z => rw [step_twin_error complete moved]; rfl
      | ok progress z =>
          rw [step_twin_ok complete moved]
          cases progress with
          | running m => exact ih m z
          | ended verdict => rfl

theorem Reached.exists_twin (complete : t.Complete) {m : Twin S V} {x y : σ} (reached : Reached t c x m y) :
    ∃ pairs l, Parse.Reached t c x pairs l y ∧ m = pairs.twin := by
  induction reached with
  | start => exact ⟨_, _, .start, rfl⟩
  | step _ moved ih =>
      obtain ⟨pairs, l, reached, rfl⟩ := ih
      cases moved' : pairs.step t c _ with
      | error failure z => cases moved.symm.trans (step_twin_error complete moved')
      | ok progress z =>
          have moved := moved.symm.trans (step_twin_ok complete moved')
          cases progress with
          | running pairs' =>
              cases moved
              obtain ⟨l', reached'⟩ := reached.next moved'
              exact ⟨pairs', l', reached', rfl⟩
          | ended verdict => cases moved

/-- At this point of a run on two stacks everything is in order: the stacks are level, the states and the
productions that may come up are there, and the next move makes no slip. -/
structure Steady (t : Table S) (c : Client S V ε σ) (m : Twin S V) (y : σ) : Prop where
  level : m.values.length = m.states.length
  states : ∀ s ∈ m.states, s = 0 ∨ s < t.stateCount
  productions : ∀ s symbol p, s ∈ m.states → t.action? s symbol = some (.reduce p) →
    p < t.productionCount
  moves : ∀ slip z, m.step t c y ≠ .error (.inl slip) z

end Twin

variable [Alphabet S] {t : Table S} {c : Client S V ε σ} {m : Machine S V} {l : Ledger S V} {x y z : σ}

theorem Moves.states_lt {s : Nat} {token : Token S V} {m' : Machine S V} (complete : t.Complete)
    (moves : Moves t c s token m m') (inside : ∀ entry ∈ m.stack, entry.1 = 0 ∨ entry.1 < t.stateCount) :
    ∀ entry ∈ m'.stack, entry.1 = 0 ∨ entry.1 < t.stateCount := by
  cases moves with
  | shift action => exact List.forall_mem_cons.2 ⟨.inr (complete.inRange _ _ _ action), inside⟩
  | reduce _ _ _ _ rest =>
      exact fun entry member => inside entry (List.mem_of_mem_drop (rest ▸ member))
  | discard => exact inside
  | unwind _ _ _ unwound =>
      rw [Machine.unwound] at unwound
      exact fun entry member => inside entry ((List.dropWhile_sublist _).subset (unwound ▸ member))

theorem Reached.states_lt (complete : t.Complete) (reached : Reached t c x m l y) :
    ∀ entry ∈ m.stack, entry.1 = 0 ∨ entry.1 < t.stateCount := by
  induction reached with
  | start => exact List.forall_mem_singleton.2 (.inl rfl)
  | step _ top select moved ih =>
      exact (Moves.of_select top select moved).states_lt complete (Machine.stack_select select ▸ ih)

theorem Twin.Reached.steady (complete : t.Complete) {m : Twin S V} (reached : Twin.Reached t c x m y) :
    m.Steady t c y := by
  obtain ⟨pairs, l, alike, rfl⟩ := reached.exists_twin complete
  refine ⟨by simp [Machine.twin], fun s member => ?_, fun s symbol p _ action =>
    complete.inRange _ _ _ action, fun slip z slipped => ?_⟩
  · obtain ⟨entry, there, rfl⟩ := List.mem_map.1 member
    exact alike.states_lt complete entry there
  · cases moved : pairs.step t c y with
    | ok progress z => cases slipped.symm.trans (step_twin_ok complete moved)
    | error failure z => cases slipped.symm.trans (step_twin_error complete moved)

theorem parse_ne_broken (complete : t.Complete) {bound : Nat} {verdict : Verdict V ε}
    (ended : parse t c bound x = some (verdict, z)) : verdict ≠ .broken := by
  obtain ⟨calls, recorded⟩ := exists_parse_recorded ended
  obtain ⟨reports, reported⟩ := c.recorded.shadows_reported.parse recorded []
  have fresh : (Machine.initial c.blank : Machine S V).Told [] [] :=
    ⟨List.cons_ne_nil _ _, List.forall_mem_nil _, rfl, List.not_mem_nil, nofun⟩
  rintro rfl
  rcases c.tells_reported.run complete fresh reported with ⟨_, aborted⟩ | told
  · cases aborted
  · cases told

/-- With a table that has been read, whatever the client is, a parser on two stacks never makes a slip: at
each point of a run everything is in order, and the verdict is that of the parser with pairs on one stack,
which never lacks a production. -/
theorem parse_steady {rows : List (List (S × String))} {heads : List S} {lengths : List Nat}
    (built : Table.ofRows rows heads lengths = .ok t) (c : Client S V ε σ) (x : σ) :
    t.stateCount = rows.length ∧ t.productionCount = heads.length ∧
    (∀ m y, Twin.Reached t c x m y → m.Steady t c y) ∧
    ∀ bound, Twin.parse t c bound x =
        (parse t c bound x).map (fun (verdict, y) => (.ok verdict, y)) ∧
      ∀ y, parse t c bound x ≠ some (.broken, y) := by
  obtain ⟨states, productions, _⟩ := Table.counts_of_ofRows built
  have complete := Table.complete_of_ofRows built
  exact ⟨states, productions, fun m y reached => reached.steady complete,
    fun bound => ⟨Twin.run_twin complete bound (.initial c.blank) x,
      fun y ended => parse_ne_broken complete ended rfl⟩⟩

/-- A table that is of no use: it reduces on the error symbol and on the head of a production, and one of
its productions is longer than any stack will be. -/
def wildTable : Table String where
  rows := #[[("E", .reduce 2), ("error", .reduce 1), ("n", .shift 1)], [("error", .reduce 1), ("$", .reduce 1)]]
  heads := #["S", "E", "E"]
  lengths := #[1, 0, 1000]

theorem parse_steady_wildTable :
    Table.ofRows [[("n", "s1"), ("error", "r1"), ("E", "r2")], [("$", "r1"), ("error", "r1")]]
      ["S", "E", "E"] [1, 0, 1000] = .ok wildTable ∧
    ∀ words, (∀ m y, Twin.Reached wildTable Client.words words m y →
        m.Steady wildTable Client.words y) ∧
      ∀ bound, Twin.parse wildTable Client.words bound words =
        (parse wildTable Client.words bound words).map (fun (verdict, y) => (.ok verdict, y)) := by
  have built : Table.ofRows [[("n", "s1"), ("error", "r1"), ("E", "r2")], [("$", "r1"), ("error", "r1")]]
      ["S", "E", "E"] [1, 0, 1000] = .ok wildTable := rfl
  refine ⟨built, fun words => ?_⟩
  obtain ⟨_, _, steady, runs⟩ := parse_steady built Client.words words
  exact ⟨steady, fun bound => (runs bound).1⟩

end LongestMatch.Parse
