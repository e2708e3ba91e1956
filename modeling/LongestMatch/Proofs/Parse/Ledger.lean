import LongestMatch.Proofs.Parse.Step

/-!
# What becomes of the tokens

A ledger follows the tokens that a parser reads: each is shifted, thrown away while recovering, or
still waits. A token that waits is lost when another symbol takes its slot. The ledger of a run keeps
track of the slots of the parser (`Reached.tracks`), and every run that ends has one (`exists_ran_of_parse`).
-/

namespace LongestMatch.Parse

inductive Fate where
  | shifted
  | discarded
  /-- Another symbol has taken its slot. -/
  | replaced
  deriving DecidableEq, Repr

/-- The tokens read so far, in order, and what has become of all but the one that waits. -/
structure Ledger (S V : Type) where
  read : List (Token S V) := []
  settled : List (Token S V × Fate) := []
  waiting : Option (Token S V) := none

variable {S V ε σ : Type} [Alphabet S]

def Machine.fate? (t : Table S) (m : Machine S V) (state : Nat) (symbol : S) : Option Fate :=
  match t.action? state symbol with
  | some (.shift _) => some .shifted
  | some (.reduce _) => none
  | none => if m.recovering then some .discarded else none

namespace Ledger

def take (l : Ledger S V) (m : Machine S V) (token : Token S V) : Ledger S V :=
  if m.reduced.isNone ∧ m.lookahead.isNone then
    { l with read := l.read ++ [token], waiting := some token }
  else l

def settle (l : Ledger S V) (fate : Fate) : Ledger S V :=
  match l.waiting with
  | none => l
  | some token => { l with settled := l.settled ++ [(token, fate)], waiting := none }

/-- The ledger after the parser has gone on with the symbol. A head or an error symbol is in nobody's
ledger; if it has to wait, it takes the slot of the token that waits. -/
def after (l : Ledger S V) (t : Table S) (m : Machine S V) (state : Nat) (token : Token S V) :
    Ledger S V :=
  match m.fate? t state token.symbol, m.reduced with
  | some fate, none => (l.take m token).settle fate
  | some _, some _ => l
  | none, none => l.take m token
  | none, some _ => l.settle .replaced

def Balanced (l : Ledger S V) : Prop := l.read = l.settled.map Prod.fst ++ l.waiting.toList

def Intact (l : Ledger S V) : Prop := ∀ entry ∈ l.settled, entry.2 ≠ .replaced

end Ledger

inductive Reached (t : Table S) (c : Client S V ε σ) (x : σ) :
    Machine S V → Ledger S V → σ → Prop
  | start : Reached t c x (.initial c.blank) {} x
  | step {m m' m₁ : Machine S V} {l : Ledger S V} {y y' z : σ} {s : Nat} {v : V}
      {stack : List (Nat × V)} {token : Token S V} : Reached t c x m l y →
        m.stack = (s, v) :: stack → m.select c y = .ok (token, m₁) z →
          m.step t c y = .ok (.running m') y' → Reached t c x m' (l.after t m s token) y'

def Machine.unwound (t : Table S) (m : Machine S V) : List (Nat × V) :=
  m.stack.dropWhile fun entry => (t.action? entry.1 Alphabet.error).isNone

inductive Moves (t : Table S) (c : Client S V ε σ) (s : Nat) (token : Token S V)
    (m : Machine S V) : Machine S V → Prop
  | shift {target : Nat} : t.action? s token.symbol = some (.shift target) →
      Moves t c s token m { m.settle token.symbol with
        stack := (target, token.value) :: m.stack }
  | reduce {p length : Nat} {head : S} {value : V} {entry : Nat × V} {below : List (Nat × V)} :
      t.action? s token.symbol = some (.reduce p) → p ≠ 0 → t.heads[p]? = some head →
        t.lengths[p]? = some length → m.stack.drop length = entry :: below →
          Moves t c s token m { m.settle token.symbol with
            stack := entry :: below
            reduced := some ⟨head, value, ""⟩
            lookahead := some token }
  | discard : t.action? s token.symbol = none → m.recovering = true →
      token.symbol ≠ Alphabet.endMark → Moves t c s token m m
  | unwind {entry : Nat × V} {below : List (Nat × V)} : t.action? s token.symbol = none →
      m.recovering = false → token.symbol ≠ Alphabet.endMark →
        m.unwound t = entry :: below → Moves t c s token m { m with
          stack := entry :: below
          reduced := some ⟨Alphabet.error, c.blank, ""⟩
          lookahead := some token
          recovering := true
          diagnostics := m.diagnostics ++
            [.unexpected (Alphabet.name token.symbol) token.text] }

variable {t : Table S} {c : Client S V ε σ} {m m' m₁ : Machine S V} {l : Ledger S V}
  {token : Token S V} {x y y' z : σ} {s : Nat} {v : V} {stack : List (Nat × V)}

namespace Machine

theorem recover_unwound (steady : m.recovering = false) (more : token.symbol ≠ Alphabet.endMark)
    {entry : Nat × V} {below : List (Nat × V)} (unwound : m.unwound t = entry :: below) :
    m.recover t c s token y = .ok (.running { m with
        stack := entry :: below
        reduced := some ⟨Alphabet.error, c.blank, ""⟩
        lookahead := some token
        recovering := true
        diagnostics := m.diagnostics ++ [.unexpected (Alphabet.name token.symbol) token.text] })
      (c.report (.unexpected (Alphabet.name token.symbol) token.text) y) := by
  rw [Machine.unwound] at unwound
  rw [recover, if_neg (by simp [steady])]
  refine (bind_of_ok rfl).trans ?_
  simp only [if_neg more, unwound]
  rfl

theorem recover_giveUp (steady : m.recovering = false) (unwound : m.unwound t = []) :
    m.recover t c s token y = .ok (.ended (.rejected (m.diagnostics ++
        [.unexpected (Alphabet.name token.symbol) token.text])))
      (c.report (.unexpected (Alphabet.name token.symbol) token.text) y) := by
  rw [Machine.unwound] at unwound
  rw [recover, if_neg (by simp [steady])]
  refine (bind_of_ok rfl).trans ?_
  simp only [unwound]
  split <;> simp [rejection] <;> rfl

end Machine

theorem Moves.of_recover (unknown : t.action? s token.symbol = none)
    (moved : m.recover t c s token y = .ok (.running m') y') : Moves t c s token m m' := by
  cases recovering : m.recovering with
  | true =>
      rw [Machine.recover, if_pos recovering] at moved
      split at moved
      · cases moved
      · rename_i more
        cases moved
        exact .discard unknown recovering more
  | false =>
      cases unwound : m.unwound t with
      | nil => cases moved.symm.trans (Machine.recover_giveUp recovering unwound)
      | cons entry below =>
          by_cases more : token.symbol = Alphabet.endMark
          · rw [Machine.recover, if_neg (by simp [recovering])] at moved
            obtain ⟨_, _, diagnosed, moved⟩ := bind_eq_ok.1 moved
            cases diagnosed
            rw [if_pos more] at moved
            cases moved
          · cases moved.symm.trans (Machine.recover_unwound recovering more unwound)
            exact .unwind unknown recovering more unwound

theorem Moves.of_step (moved : m.step t c y = .ok (.running m') y') :
    ∃ s v stack token m₁ z, m.stack = (s, v) :: stack ∧ m.select c y = .ok (token, m₁) z ∧
      Moves t c s token m₁ m' := by
  obtain ⟨_, ended⟩ | ⟨s, v, stack, token, m₁, z, top, select, moved⟩ := Machine.step_cases moved
  · cases ended
  refine ⟨s, v, stack, token, m₁, z, top, select, ?_⟩
  rcases moved with ⟨target, action, same, _⟩ | ⟨p, action, moved⟩ | ⟨unknown, moved⟩
  · cases same
    rw [Machine.stack_settle]
    exact .shift action
  · obtain ⟨_, ended, _⟩ | ⟨head, length, entry, below, value, known, size, rest, _, progress⟩ :=
      Machine.reduce_cases moved
    · cases ended
    · split at progress
      · cases progress
      · rename_i more
        cases progress
        rw [Machine.stack_settle] at rest
        exact .reduce action more known size rest
  · exact .of_recover unknown moved

theorem Moves.of_select (top : m.stack = (s, v) :: stack) (select : m.select c y = .ok (token, m₁) z)
    (moved : m.step t c y = .ok (.running m') y') : Moves t c s token m₁ m' := by
  obtain ⟨_, _, _, _, _, _, top', select', moves⟩ := Moves.of_step moved
  cases top.symm.trans top'
  cases select.symm.trans select'
  exact moves

theorem Moves.slots (moves : Moves t c s token m m') :
    (∃ fate, m.fate? t s token.symbol = some fate ∧ m'.reduced = m.reduced ∧
      m'.lookahead = m.lookahead) ∨
    (m.fate? t s token.symbol = none ∧ m'.lookahead = some token ∧ m'.reduced.isSome) := by
  unfold Machine.fate?
  cases moves with
  | shift action => exact .inl ⟨.shifted, by rw [action], by simp, by simp⟩
  | reduce action => exact .inr ⟨by rw [action], rfl, rfl⟩
  | discard unknown recovering => exact .inl ⟨.discarded, by rw [unknown]; simp [recovering], rfl, rfl⟩
  | unwind unknown steady => exact .inr ⟨by rw [unknown]; simp [steady], rfl, rfl⟩

theorem Machine.fate?_select (select : m.select c y = .ok (token, m₁) z) (symbol : S) :
    m₁.fate? t s symbol = m.fate? t s symbol := by
  rw [Machine.fate?, Machine.recovering_select select, Machine.fate?]

namespace Ledger

omit [Alphabet S] in
@[simp]
theorem waiting_settle (l : Ledger S V) (fate : Fate) : (l.settle fate).waiting = none := by
  unfold settle
  split
  · assumption
  · rfl

omit [Alphabet S] in
theorem Balanced.settle (balanced : l.Balanced) (fate : Fate) : (l.settle fate).Balanced := by
  unfold Ledger.settle
  split
  · exact balanced
  · rename_i token waiting
    rw [Balanced, waiting] at balanced
    simpa [Balanced] using balanced

omit [Alphabet S] in
theorem Intact.settle (intact : l.Intact) {fate : Fate} (fair : fate ≠ .replaced) :
    (l.settle fate).Intact := by
  unfold Ledger.settle
  split
  · exact intact
  · intro entry member
    rcases List.mem_append.1 member with old | new
    · exact intact entry old
    · rw [List.mem_singleton.1 new]
      exact fair

omit [Alphabet S] in
theorem Intact.of_settle {fate : Fate} (intact : (l.settle fate).Intact) : l.Intact := by
  unfold Ledger.settle at intact
  split at intact
  · exact intact
  · exact fun entry member => intact entry (List.mem_append_left _ member)

/-- The token that waits is the one in the lookahead slot, unless a slot was taken. -/
structure Tracks (l : Ledger S V) (m : Machine S V) : Prop where
  balanced : l.Balanced
  waiting : ∀ token, l.waiting = some token → m.lookahead = some token
  intact : l.Intact → l.waiting = m.lookahead
  pending : m.reduced.isSome → m.lookahead.isSome

omit [Alphabet S] in
theorem Tracks.not_intact_settle (tracks : l.Tracks m) {head : Token S V}
    (pending : m.reduced = some head) : ¬ (l.settle .replaced).Intact := by
  intro intact
  have waits := tracks.pending (by rw [pending]; rfl)
  rw [← tracks.intact intact.of_settle] at waits
  obtain ⟨token, waiting⟩ := Option.isSome_iff_exists.1 waits
  rw [Ledger.settle, waiting] at intact
  exact intact (token, .replaced) (List.mem_append_right _ List.mem_cons_self) rfl

omit [Alphabet S] in
@[simp]
theorem settled_take (l : Ledger S V) (m : Machine S V) (token : Token S V) :
    (l.take m token).settled = l.settled := by unfold take; split <;> rfl

omit [Alphabet S] in
theorem Tracks.balanced_take (tracks : l.Tracks m) (token : Token S V) :
    (l.take m token).Balanced := by
  rw [Ledger.take]
  split
  · rename_i free
    have none : l.waiting = none := by
      cases waiting : l.waiting with
      | none => rfl
      | some token' =>
          rw [tracks.waiting token' waiting] at free
          cases free.2
    have balanced := tracks.balanced
    rw [Balanced, none] at balanced
    simp [Balanced, balanced]
  · exact tracks.balanced

omit [Alphabet S] in
theorem Tracks.waiting_take (tracks : l.Tracks m) (select : m.select c y = .ok (token, m₁) z)
    (source : m.reduced = none) :
    (∀ token', (l.take m token).waiting = some token' → token' = token) ∧
      (l.Intact → (l.take m token).waiting = some token) := by
  rcases Machine.select_cases select with ⟨head, _⟩ | ⟨_, lookahead, _⟩ | ⟨_, empty, _⟩
  · cases source.symm.trans head
  · have same : l.take m token = l := by rw [Ledger.take, if_neg (by simp [lookahead])]
    rw [same]
    refine ⟨fun token' waiting => ?_, fun intact => ?_⟩
    · exact Option.some.inj ((tracks.waiting token' waiting).symm.trans lookahead)
    · rw [tracks.intact intact, lookahead]
  · have taken : l.take m token = { l with read := l.read ++ [token], waiting := some token } := by
      rw [Ledger.take, if_pos (by simp [source, empty])]
    rw [taken]
    exact ⟨fun token' same => (Option.some.inj same).symm, fun _ => rfl⟩

section

variable (tracks : l.Tracks m) (select : m.select c y = .ok (token, m₁) z)
  (moves : Moves t c s token m₁ m')
include tracks select moves

theorem Tracks.after_source (source : m.reduced = none) : (l.after t m s token).Tracks m' := by
  have slots := moves.slots
  rw [Machine.fate?_select select] at slots
  have balanced := tracks.balanced_take token
  obtain ⟨unique, waits⟩ := tracks.waiting_take select source
  rcases slots with ⟨fate, gone, reduced, lookahead⟩ | ⟨stays, lookahead, _⟩
  · rw [Machine.reduced_select select] at reduced
    rw [Machine.lookahead_select select source] at lookahead
    rw [Ledger.after, gone, source]
    refine ⟨balanced.settle fate, fun token' waiting => ?_, fun _ => ?_, fun pending => ?_⟩
    · cases (waiting_settle _ fate).symm.trans waiting
    · exact (waiting_settle _ fate).trans lookahead.symm
    · rw [reduced] at pending
      cases pending
  · rw [Ledger.after, stays, source]
    refine ⟨balanced, fun token' waiting => ?_, fun intact => ?_, fun _ => ?_⟩
    · rw [unique token' waiting, lookahead]
    · rw [Intact, settled_take] at intact
      rw [waits intact, lookahead]
    · rw [lookahead]
      rfl

theorem Tracks.after_pending (pending : m.reduced = some token) :
    (l.after t m s token).Tracks m' := by
  have slots := moves.slots
  rw [Machine.fate?_select select] at slots
  cases (Machine.select_pending pending).symm.trans select
  rcases slots with ⟨fate, gone, reduced, lookahead⟩ | ⟨stays, lookahead, _⟩
  · rw [Ledger.after, gone, pending]
    refine ⟨tracks.balanced, fun token' waiting => ?_, fun intact => ?_, fun pending => ?_⟩
    · exact lookahead.trans (tracks.waiting token' waiting)
    · exact (tracks.intact intact).trans lookahead.symm
    · rw [reduced] at pending
      cases pending
  · rw [Ledger.after, stays, pending]
    refine ⟨tracks.balanced.settle _, fun token' waiting => ?_, fun intact => ?_, fun _ => ?_⟩
    · cases (waiting_settle _ _).symm.trans waiting
    · exact (tracks.not_intact_settle pending intact).elim
    · rw [lookahead]
      rfl

theorem Tracks.after : (l.after t m s token).Tracks m' := by
  cases reduced : m.reduced with
  | none => exact tracks.after_source select moves reduced
  | some head =>
      cases (Machine.select_pending reduced).symm.trans select
      exact tracks.after_pending select moves reduced

end

end Ledger

theorem Reached.tracks (reached : Reached t c x m l y) : l.Tracks m := by
  induction reached with
  | start => exact ⟨rfl, fun _ => nofun, fun _ => rfl, nofun⟩
  | step _ top select moved ih => exact ih.after select (.of_select top select moved)

theorem Reached.next (reached : Reached t c x m l y)
    (moved : m.step t c y = .ok (.running m') y') : ∃ l', Reached t c x m' l' y' := by
  obtain ⟨s, v, stack, token, m₁, z, top, select, _⟩ := Moves.of_step moved
  exact ⟨_, reached.step top select moved⟩

theorem Reached.exists_run_eq (reached : Reached t c x m l y) :
    ∃ moves, ∀ bound, run t c (bound + moves) (.initial c.blank) x = run t c bound m y := by
  induction reached with
  | start => exact ⟨0, fun _ => rfl⟩
  | step _ _ _ moved ih =>
      obtain ⟨moves, runs⟩ := ih
      refine ⟨moves + 1, fun bound => ?_⟩
      rw [← run_running moved bound, ← runs (bound + 1), Nat.add_right_comm, Nat.add_assoc]

theorem Reached.eq_of_run {bound many : Nat} {outcome outcome' : Verdict V ε × σ}
    (reached : Reached t c x m l y) (ended : run t c bound m y = some outcome)
    (parsed : parse t c many x = some outcome') : outcome = outcome' := by
  obtain ⟨moves, runs⟩ := reached.exists_run_eq
  have first := run_add ((runs bound).trans ended) many
  have second := run_add parsed (bound + moves)
  rw [Nat.add_comm] at second
  exact Option.some.inj (first.symm.trans second)

omit [Alphabet S] in
theorem Ledger.read_take (select : m.select c y = .ok (token, m₁) z) :
    (l.take m token).read = l.read ∧ z = y ∨
      (l.take m token).read = l.read ++ [token] ∧ c.next y = .ok token z := by
  obtain ⟨reduced, _, same⟩ | ⟨_, lookahead, _, same⟩ | ⟨reduced, lookahead, _, next⟩ :=
    Machine.select_cases select
  · exact .inl ⟨by simp [take, reduced], same⟩
  · exact .inl ⟨by simp [take, lookahead], same⟩
  · exact .inr ⟨by simp [take, reduced, lookahead], next⟩

def Ledger.final (l : Ledger S V) (c : Client S V ε σ) (m : Machine S V) (y : σ) : Ledger S V :=
  match m.select c y with
  | .ok (token, _) _ => l.take m token
  | .error _ _ => l

inductive Ran (t : Table S) (c : Client S V ε σ) (x : σ) :
    Verdict V ε → σ → Ledger S V → Prop
  | ended {m : Machine S V} {l : Ledger S V} {y z : σ} {verdict : Verdict V ε} :
      Reached t c x m l y → run t c 1 m y = some (verdict, z) →
        Ran t c x verdict z (l.final c m y)

theorem Reached.exists_ran {bound : Nat} {verdict : Verdict V ε} (reached : Reached t c x m l y)
    (ended : run t c bound m y = some (verdict, z)) : ∃ l', Ran t c x verdict z l' := by
  induction bound generalizing m l y with
  | zero => cases ended
  | succ bound ih =>
      cases moved : m.step t c y with
      | error failure y' =>
          rw [run_error moved] at ended
          exact ⟨_, .ended reached ((run_error moved 0).trans ended)⟩
      | ok progress y' =>
          cases progress with
          | running m' =>
              rw [run_running moved] at ended
              obtain ⟨l', reached'⟩ := reached.next moved
              exact ih reached' ended
          | ended verdict' =>
              rw [run_ended moved] at ended
              exact ⟨_, .ended reached ((run_ended moved 0).trans ended)⟩

theorem exists_ran_of_parse {bound : Nat} {verdict : Verdict V ε}
    (ended : parse t c bound x = some (verdict, z)) : ∃ l, Ran t c x verdict z l :=
  Reached.start.exists_ran ended

end LongestMatch.Parse
