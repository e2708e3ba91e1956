import Mathlib.Data.List.TakeWhile
import Mathlib.Tactic.Common
import LongestMatch.Parse.Run

namespace LongestMatch.Parse

section Bind

variable {ε σ α β : Type} {first : EStateM ε σ α} {next : α → EStateM ε σ β} {x y : σ}

theorem bind_of_ok {a : α} (done : first x = .ok a y) : (first >>= next) x = next a y := by
  show EStateM.bind first next x = _
  rw [EStateM.bind, done]

theorem bind_of_error {e : ε} (failed : first x = .error e y) : (first >>= next) x = .error e y := by
  show EStateM.bind first next x = _
  rw [EStateM.bind, failed]

theorem bind_eq_ok {b : β} : (first >>= next) x = .ok b y ↔
    ∃ a z, first x = .ok a z ∧ next a z = .ok b y := by
  cases done : first x with
  | ok a z => simp [bind_of_ok done]
  | error e z => simp [bind_of_error done]

end Bind

namespace Machine

variable {S V ε σ : Type} [Alphabet S] {t : Table S} {c : Client S V ε σ} {m m' : Machine S V}
  {token : Token S V} {x x' : σ} {s s' p : Nat} {v value : V} {stack : List (Nat × V)}

@[simp]
theorem stack_settle (m : Machine S V) (symbol : S) : (m.settle symbol).stack = m.stack := by
  unfold settle; split <;> rfl

@[simp]
theorem reduced_settle (m : Machine S V) (symbol : S) : (m.settle symbol).reduced = m.reduced := by
  unfold settle; split <;> rfl

@[simp]
theorem lookahead_settle (m : Machine S V) (symbol : S) :
    (m.settle symbol).lookahead = m.lookahead := by
  unfold settle; split <;> rfl

@[simp]
theorem diagnostics_settle (m : Machine S V) (symbol : S) :
    (m.settle symbol).diagnostics = m.diagnostics := by
  unfold settle; split <;> rfl

theorem recovering_settle (steady : m.recovering = false) (symbol : S) :
    (m.settle symbol).recovering = false := by
  rw [settle]
  split
  · exact steady
  · rfl

theorem step_shift (top : m.stack = (s, v) :: stack)
    (select : m.select c x = .ok (token, m') x')
    (action : t.action? s token.symbol = some (.shift s')) :
    m.step t c x = .ok (.running { m'.settle token.symbol with
        stack := (s', token.value) :: (m'.settle token.symbol).stack })
      (c.observe (.shift s (Alphabet.name token.symbol) s') x') := by
  rw [step, top]
  refine (bind_of_ok select).trans ?_
  simp only [action]
  rfl

theorem step_reduce (top : m.stack = (s, v) :: stack)
    (select : m.select c x = .ok (token, m') x')
    (action : t.action? s token.symbol = some (.reduce p)) :
    m.step t c x = (m'.settle token.symbol).reduce t c s p token x' := by
  rw [step, top]
  refine (bind_of_ok select).trans ?_
  simp only [action]

theorem step_error {failure : ε} (top : m.stack = (s, v) :: stack)
    (select : m.select c x = .error failure x') : m.step t c x = .error failure x' := by
  rw [step, top]
  exact bind_of_error select

theorem step_recover (top : m.stack = (s, v) :: stack)
    (select : m.select c x = .ok (token, m') x') (action : t.action? s token.symbol = none) :
    m.step t c x = m'.recover t c s token x' := by
  rw [step, top]
  refine (bind_of_ok select).trans ?_
  simp only [action]

theorem recover_eq (steady : m.recovering = false)
    (noError : ∀ s, t.action? s Alphabet.error = none) :
    m.recover t c s token x = .ok (.ended (.rejected (m.diagnostics ++
        [.unexpected (Alphabet.name token.symbol) token.text])))
      (c.report (.unexpected (Alphabet.name token.symbol) token.text) x) := by
  rw [recover, if_neg (by simp [steady])]
  refine bind_eq_ok.2 ⟨_, _, rfl, ?_⟩
  have unwound : (m.stack.dropWhile fun entry => (t.action? entry.1 Alphabet.error).isNone) = [] :=
    List.dropWhile_eq_nil_iff.2 fun entry _ => by rw [noError]; rfl
  simp only [unwound]
  split <;> simp [rejection] <;> rfl

theorem reduce_eq (popped : List (Nat × V)) {head : S} {entry : Nat × V}
    (shape : m.stack = popped ++ entry :: stack) (known : t.heads[p]? = some head)
    (length : t.lengths[p]? = some popped.length)
    (combine : c.reduce p (popped.map Prod.snd).reverse
      (c.observe (.reduce s p (Alphabet.name head)) x) = .ok value x') :
    m.reduce t c s p token x = .ok (if p = 0 then
        .ended (if m.diagnostics.isEmpty then .accepted value else m.rejection)
      else .running { m with
        stack := entry :: stack
        reduced := some ⟨head, value, ""⟩
        lookahead := some token }) x' := by
  have rest : m.stack.drop popped.length = entry :: stack := by rw [shape, List.drop_left]
  rw [reduce, known, length]
  simp only [rest]
  refine bind_eq_ok.2 ⟨(), _, rfl, bind_eq_ok.2 ⟨value, x', ?_, ?_⟩⟩
  · rw [shape, List.take_left]
    exact combine
  · split <;> rfl

theorem reduce_error {failure : ε} (popped : List (Nat × V)) {head : S} {entry : Nat × V}
    (shape : m.stack = popped ++ entry :: stack) (known : t.heads[p]? = some head)
    (length : t.lengths[p]? = some popped.length)
    (combine : c.reduce p (popped.map Prod.snd).reverse
      (c.observe (.reduce s p (Alphabet.name head)) x) = .error failure x') :
    m.reduce t c s p token x = .error failure x' := by
  have rest : m.stack.drop popped.length = entry :: stack := by rw [shape, List.drop_left]
  have values : m.stack.take popped.length = popped := by rw [shape, List.take_left]
  rw [reduce, known, length]
  simp only [rest, values]
  exact (bind_of_ok rfl).trans (bind_of_error combine)

theorem step_cases {progress : Progress S V ε} (moved : m.step t c x = .ok progress x') :
    m.stack = [] ∧ progress = .ended m.rejection ∨
      ∃ s v stack token m' y, m.stack = (s, v) :: stack ∧ m.select c x = .ok (token, m') y ∧
        ((∃ s', t.action? s token.symbol = some (.shift s') ∧
            progress = .running { m'.settle token.symbol with
              stack := (s', token.value) :: (m'.settle token.symbol).stack } ∧
            x' = c.observe (.shift s (Alphabet.name token.symbol) s') y) ∨
          (∃ p, t.action? s token.symbol = some (.reduce p) ∧
            (m'.settle token.symbol).reduce t c s p token y = .ok progress x') ∨
          t.action? s token.symbol = none ∧ m'.recover t c s token y = .ok progress x') := by
  rw [step] at moved
  cases top : m.stack with
  | nil =>
      rw [top] at moved
      cases moved
      exact .inl ⟨rfl, rfl⟩
  | cons entry stack =>
      rw [top] at moved
      obtain ⟨⟨token, m'⟩, y, select, moved⟩ := bind_eq_ok.1 moved
      refine .inr ⟨entry.1, entry.2, stack, token, m', y, rfl, select, ?_⟩
      cases action : t.action? entry.1 token.symbol with
      | none =>
          simp only [action] at moved
          exact .inr (.inr ⟨rfl, moved⟩)
      | some a =>
          cases a with
          | shift s' =>
              simp only [action] at moved
              cases moved
              exact .inl ⟨s', rfl, rfl, rfl⟩
          | reduce p =>
              simp only [action] at moved
              exact .inr (.inl ⟨p, rfl, moved⟩)

omit [Alphabet S] in
theorem rejection_ne_accepted (m : Machine S V) (value : V) :
    (m.rejection : Verdict V ε) ≠ .accepted value := by
  intro equal
  cases equal

theorem reduce_cases {progress : Progress S V ε} (moved : m.reduce t c s p token x = .ok progress x') :
    (∃ verdict, progress = .ended verdict ∧ ∀ value, verdict ≠ .accepted value) ∨
      ∃ head length entry stack value, t.heads[p]? = some head ∧ t.lengths[p]? = some length ∧
        m.stack.drop length = entry :: stack ∧
        c.reduce p ((m.stack.take length).map Prod.snd).reverse
          (c.observe (.reduce s p (Alphabet.name head)) x) = .ok value x' ∧
        progress = if p = 0 then
            .ended (if m.diagnostics.isEmpty then .accepted value else m.rejection)
          else .running { m with
            stack := entry :: stack
            reduced := some ⟨head, value, ""⟩
            lookahead := some token } := by
  rw [reduce] at moved
  cases known : t.heads[p]? with
  | none =>
      simp only [known] at moved
      cases moved
      exact .inl ⟨_, rfl, fun _ equal => by cases equal⟩
  | some head =>
      cases size : t.lengths[p]? with
      | none =>
          simp only [known, size] at moved
          cases moved
          exact .inl ⟨_, rfl, fun _ equal => by cases equal⟩
      | some length =>
          simp only [known, size] at moved
          cases rest : m.stack.drop length with
          | nil =>
              simp only [rest] at moved
              obtain ⟨m', y, _, moved⟩ := bind_eq_ok.1 moved
              cases moved
              exact .inl ⟨_, rfl, rejection_ne_accepted m'⟩
          | cons entry stack =>
              simp only [rest] at moved
              obtain ⟨⟨⟩, y, observed, moved⟩ := bind_eq_ok.1 moved
              cases observed
              obtain ⟨value, y, combined, moved⟩ := bind_eq_ok.1 moved
              refine .inr ⟨head, length, entry, stack, value, rfl, rfl, rest, ?_⟩
              split at moved <;> cases moved <;> exact ⟨combined, by simp [*]⟩

theorem recover_cases {progress : Progress S V ε}
    (moved : m.recover t c s token x = .ok progress x') :
    (∃ verdict, progress = .ended verdict ∧ ∀ value, verdict ≠ .accepted value) ∨
      ∃ m', progress = .running m' ∧ (m'.diagnostics ≠ [] ∨ m.recovering = true ∧ m' = m) := by
  rw [recover] at moved
  cases recovering : m.recovering with
  | true =>
      rw [if_pos recovering] at moved
      split at moved
      · cases moved
        exact .inl ⟨_, rfl, rejection_ne_accepted m⟩
      · cases moved
        exact .inr ⟨m, rfl, .inr ⟨rfl, rfl⟩⟩
  | false =>
      rw [if_neg (by rw [recovering]; exact Bool.noConfusion)] at moved
      obtain ⟨m', y, diagnosed, moved⟩ := bind_eq_ok.1 moved
      cases diagnosed
      split at moved
      · cases moved
        exact .inl ⟨_, rfl, rejection_ne_accepted _⟩
      · cases stack : m.stack.dropWhile fun entry => (t.action? entry.1 Alphabet.error).isNone with
        | nil =>
            simp only [stack] at moved
            cases moved
            exact .inl ⟨_, rfl, rejection_ne_accepted _⟩
        | cons entry rest =>
            simp only [stack] at moved
            cases moved
            exact .inr ⟨_, rfl, .inl (by simp)⟩

omit [Alphabet S] in
theorem select_cases (select : m.select c x = .ok (token, m') x') :
    m.reduced = some token ∧ m' = { m with reduced := none } ∧ x' = x ∨
      m.reduced = none ∧ m.lookahead = some token ∧ m' = { m with lookahead := none } ∧ x' = x ∨
        m.reduced = none ∧ m.lookahead = none ∧ m' = m ∧ c.next x = .ok token x' := by
  rw [Machine.select] at select
  cases reduced : m.reduced with
  | some _ =>
      simp only [reduced] at select
      cases select
      exact .inl ⟨rfl, rfl, rfl⟩
  | none =>
      cases lookahead : m.lookahead with
      | some _ =>
          simp only [reduced, lookahead] at select
          cases select
          exact .inr (.inl ⟨rfl, rfl, rfl, rfl⟩)
      | none =>
          simp only [reduced, lookahead] at select
          obtain ⟨_, _, next, select⟩ := bind_eq_ok.1 select
          cases select
          exact .inr (.inr ⟨rfl, rfl, rfl, next⟩)

omit [Alphabet S] in
theorem diagnostics_select (select : m.select c x = .ok (token, m') x') :
    m'.diagnostics = m.diagnostics := by
  obtain ⟨_, rfl, _⟩ | ⟨_, _, rfl, _⟩ | ⟨_, _, rfl, _⟩ := select_cases select <;> rfl

omit [Alphabet S] in
theorem stack_select (select : m.select c x = .ok (token, m') x') : m'.stack = m.stack := by
  obtain ⟨_, rfl, _⟩ | ⟨_, _, rfl, _⟩ | ⟨_, _, rfl, _⟩ := select_cases select <;> rfl

omit [Alphabet S] in
theorem recovering_select (select : m.select c x = .ok (token, m') x') :
    m'.recovering = m.recovering := by
  obtain ⟨_, rfl, _⟩ | ⟨_, _, rfl, _⟩ | ⟨_, _, rfl, _⟩ := select_cases select <;> rfl

omit [Alphabet S] in
theorem reduced_select (select : m.select c x = .ok (token, m') x') : m'.reduced = none := by
  obtain ⟨_, rfl, _⟩ | ⟨none, _, rfl, _⟩ | ⟨none, _, rfl, _⟩ := select_cases select
  · rfl
  · exact none
  · exact none

omit [Alphabet S] in
theorem lookahead_select (select : m.select c x = .ok (token, m') x') (source : m.reduced = none) :
    m'.lookahead = none := by
  obtain ⟨pending, _⟩ | ⟨_, _, rfl, _⟩ | ⟨_, none, rfl, _⟩ := select_cases select
  · cases source.symm.trans pending
  · rfl
  · exact none

omit [Alphabet S] in
theorem select_pending (pending : m.reduced = some token) :
    m.select c x = .ok (token, { m with reduced := none }) x := by
  rw [select, pending]
  rfl

theorem step_diagnosed {progress : Progress S V ε} (diagnosed : m.diagnostics ≠ [])
    (moved : m.step t c x = .ok progress x') :
    (∀ m', progress = .running m' → m'.diagnostics ≠ []) ∧
      ∀ value, progress ≠ .ended (.accepted value) := by
  obtain ⟨_, rfl⟩ | ⟨_, _, _, token, m', _, _, select, moved⟩ := step_cases moved
  · exact ⟨fun _ => (by cases ·), fun _ equal => by cases equal⟩
  · have diagnosed : m'.diagnostics ≠ [] := diagnostics_select select ▸ diagnosed
    obtain ⟨_, _, rfl, _⟩ | ⟨p, _, moved⟩ | ⟨_, moved⟩ := moved
    · refine ⟨fun _ equal => ?_, fun _ equal => by cases equal⟩
      cases equal
      simpa using diagnosed
    · obtain ⟨verdict, rfl, other⟩ | ⟨_, _, _, _, _, _, _, _, _, rfl⟩ := reduce_cases moved
      · exact ⟨fun _ => (by cases ·), fun value equal => other value (by injection equal)⟩
      · have marked : (m'.settle token.symbol).diagnostics.isEmpty = false := by
          simpa using diagnosed
        split
        · rw [marked]
          exact ⟨fun _ => (by cases ·), fun value equal => by cases equal⟩
        · refine ⟨fun _ equal => ?_, fun _ equal => by cases equal⟩
          cases equal
          simpa using diagnosed
    · obtain ⟨verdict, rfl, other⟩ | ⟨m'', rfl, more | ⟨_, rfl⟩⟩ := recover_cases moved
      · exact ⟨fun _ => (by cases ·), fun value equal => other value (by injection equal)⟩
      · refine ⟨fun _ equal => ?_, fun _ equal => by cases equal⟩
        cases equal
        exact more
      · refine ⟨fun _ equal => ?_, fun _ equal => by cases equal⟩
        cases equal
        exact diagnosed

end Machine

variable {S V ε σ : Type} [Alphabet S] {t : Table S} {c : Client S V ε σ} {m m' : Machine S V}
  {x x' : σ} {verdict : Verdict V ε}

/-- Where the states of a client are related, it combines values and observes moves in the same
way. -/
structure Client.Respects (c : Client S V ε σ) (R : σ → σ → Prop) : Prop where
  observe : ∀ {x y}, R x y → ∀ move, R (c.observe move x) (c.observe move y)
  reduce : ∀ {x y y' p values value}, R x y → c.reduce p values y = .ok value y' →
    ∃ x', c.reduce p values x = .ok value x' ∧ R x' y'

theorem Machine.exists_reduce {R : σ → σ → Prop} (respects : c.Respects R) {y y' : σ} {s p : Nat}
    {token : Token S V} (related : R x y)
    (moved : m.reduce t c s p token y = .ok (.running m') y') :
    ∃ x', m.reduce t c s p token x = .ok (.running m') x' ∧ R x' y' := by
  obtain ⟨_, ended, _⟩ | ⟨head, length, entry, stack, value, known, size, rest, combined, progress⟩ :=
    reduce_cases moved
  · cases ended
  · obtain ⟨x', combined', related'⟩ := respects.reduce (respects.observe related _) combined
    have taken : (m.stack.take length).length = length := by
      rw [List.length_take, Nat.min_eq_left]
      refine Nat.le_of_lt (Nat.lt_of_not_le fun beyond => ?_)
      rw [List.drop_eq_nil_of_le beyond] at rest
      cases rest
    refine ⟨x', ?_, related'⟩
    rw [reduce_eq (m.stack.take length) (rest ▸ (List.take_append_drop length m.stack).symm) known
      (taken.symm ▸ size) combined', progress]

theorem run_running (moved : m.step t c x = .ok (.running m') x') (bound : Nat) :
    run t c (bound + 1) m x = run t c bound m' x' := by rw [run, moved]

theorem run_ended (moved : m.step t c x = .ok (.ended verdict) x') (bound : Nat) :
    run t c (bound + 1) m x = some (verdict, x') := by rw [run, moved]

theorem run_error {failure : ε} (moved : m.step t c x = .error failure x') (bound : Nat) :
    run t c (bound + 1) m x = some (.aborted failure, x') := by rw [run, moved]

theorem run_add {outcome : Verdict V ε × σ} {bound : Nat} (ended : run t c bound m x = some outcome)
    (more : Nat) : run t c (bound + more) m x = some outcome := by
  induction bound generalizing m x with
  | zero => cases ended
  | succ bound ih =>
      rw [run] at ended
      rw [Nat.add_right_comm, run]
      split at ended
      · exact ih ended
      · exact ended
      · exact ended

theorem run_diagnosed (diagnosed : m.diagnostics ≠ []) (bound : Nat) (value : V) (z : σ) :
    run t c bound m x ≠ some (.accepted value, z) := by
  intro accepted
  induction bound generalizing m x with
  | zero => cases accepted
  | succ bound ih =>
      rw [run] at accepted
      split at accepted
      · rename_i m' y moved
        exact ih ((Machine.step_diagnosed diagnosed moved).1 m' rfl) accepted
      · rename_i verdict y moved
        cases accepted
        exact (Machine.step_diagnosed diagnosed moved).2 value rfl
      · cases accepted

end LongestMatch.Parse
