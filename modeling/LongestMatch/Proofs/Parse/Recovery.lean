import Mathlib.Data.List.Chain
import LongestMatch.Proofs.Parse.Ledger

/-!
# Recovery

On an unexpected token the parser should unwind its stack to the nearest state that can shift the
error symbol and let the token wait behind it. It stops at the nearest state that has any action on
the error symbol: where this is a reduction, the error symbol takes the slot of the token, which is
lost. It is lost as well if the head of a reduction is unexpected. Otherwise no token is lost
(`nothingLost_iff`).
-/

namespace LongestMatch.Parse

variable {S V ε σ : Type} [Alphabet S]

def Table.Catches (t : Table S) (s : Nat) : Prop :=
  ∃ target, t.action? s Alphabet.error = some (.shift target)

def Action.production? : Action → Option Nat
  | .shift _ => none
  | .reduce p => some p

def Table.entries (t : Table S) : List (Nat × S × Action) :=
  t.rows.toList.zipIdx.flatMap fun row =>
    (row.1.filter fun entry => t.action? row.2 entry.1 = some entry.2).map (row.2, ·)

theorem Table.mem_entries {t : Table S} {s : Nat} {symbol : S} {a : Action} :
    (s, symbol, a) ∈ t.entries ↔ t.action? s symbol = some a := by
  simp only [entries, List.mem_flatMap, List.mem_map, List.mem_filter, decide_eq_true_eq]
  constructor
  · rintro ⟨row, _, entry, ⟨_, action⟩, same⟩
    cases same
    exact action
  · intro action
    obtain ⟨row, known, found⟩ := Option.bind_eq_some_iff.1 action
    obtain ⟨entry, first, rfl⟩ := Option.map_eq_some_iff.1 found
    have same : entry.1 = symbol := by simpa using List.find?_some first
    cases same
    refine ⟨(row, s), ?_, entry, ⟨List.mem_of_find?_eq_some first, action⟩, rfl⟩
    simpa [List.mem_zipIdx_iff_getElem?] using known

def Table.ReducesOn (t : Table S) (symbol : S) : Prop :=
  ∃ s p, t.action? s symbol = some (.reduce p)

instance (t : Table S) (symbol : S) : Decidable (t.ReducesOn symbol) :=
  decidable_of_iff (∃ entry ∈ t.entries, entry.2.1 = symbol ∧ entry.2.2.production?.isSome) <| by
    constructor
    · rintro ⟨⟨s, _, a⟩, member, rfl, reduces⟩
      cases a with
      | shift => cases reduces
      | reduce p => exact ⟨s, p, Table.mem_entries.1 member⟩
    · rintro ⟨s, p, action⟩
      exact ⟨(s, symbol, .reduce p), Table.mem_entries.2 action, rfl, rfl⟩

def Table.under (t : Table S) : Nat → Nat → List Nat
  | 0, s => [s]
  | n + 1, s => (t.entries.filter (·.2.2 = .shift s)).flatMap fun entry => t.under n entry.1

/-- Where the right-hand side of a production comes off the stack, there is an action on its head. -/
def Table.Continues (t : Table S) : Prop :=
  ∀ entry ∈ t.entries, ∀ p < t.productionCount, entry.2.2 = .reduce p → p ≠ 0 →
    ∀ head ∈ t.heads[p]?, ∀ length ∈ t.lengths[p]?,
      ∀ s ∈ t.under length entry.1, t.action? s head ≠ none

instance (t : Table S) : Decidable t.Continues := by
  unfold Table.Continues
  infer_instance

structure Machine.Unexpected (t : Table S) (c : Client S V ε σ) (m : Machine S V) (y : σ) (s : Nat)
    (token : Token S V) (m₁ : Machine S V) (z : σ) : Prop where
  top : ∃ v stack, m.stack = (s, v) :: stack
  select : m.select c y = .ok (token, m₁) z
  unknown : t.action? s token.symbol = none
  steady : m.recovering = false
  more : token.symbol ≠ Alphabet.endMark

/-- From an unexpected symbol the parser goes on from the nearest state that can shift the error
symbol: it shifts it there, and the unexpected symbol waits. It gives up if there is no such state. -/
structure Machine.Recovers (t : Table S) (c : Client S V ε σ) (m : Machine S V) (y : σ) : Prop where
  giveUp : ∀ {s token m₁ z}, m.Unexpected t c y s token m₁ z →
    (∀ entry ∈ m.stack, ¬ t.Catches entry.1) →
      ∃ diagnostics z', m.step t c y = .ok (.ended (.rejected diagnostics)) z'
  goOn : ∀ {s token m₁ z}, m.Unexpected t c y s token m₁ z →
    ∀ {above entry below target}, m.stack = above ++ entry :: below →
      (∀ e ∈ above, ¬ t.Catches e.1) → t.action? entry.1 Alphabet.error = some (.shift target) →
        ∃ m' m'' z' z'', m.step t c y = .ok (.running m') z' ∧
          m'.step t c z' = .ok (.running m'') z'' ∧
          m''.stack = (target, c.blank) :: entry :: below ∧ m''.reduced = none ∧
          m''.lookahead = some token

/-- The parser recovers as it should from every unexpected symbol, and every token that it reads is
shifted or discarded, in order, but for the last one when it stops. -/
structure NothingLost (t : Table S) (c : Client S V ε σ) (x : σ) : Prop where
  recovers : ∀ {m l y}, Reached t c x m l y → m.Recovers t c y
  complete : ∀ {m l y}, Reached t c x m l y → l.Balanced ∧ l.Intact
  ended : ∀ {bound verdict z}, parse t c bound x = some (verdict, z) →
    ∃ l, Ran t c x verdict z l ∧ l.Balanced ∧ l.Intact

structure Machine.UnwindsRight (t : Table S) (c : Client S V ε σ) (m : Machine S V) (y : σ) :
    Prop where
  catches : ∀ {s token m₁ z entry below}, m.Unexpected t c y s token m₁ z →
    m.unwound t = entry :: below → t.Catches entry.1
  source : ∀ {s token m₁ z entry below}, m.Unexpected t c y s token m₁ z →
    m.unwound t = entry :: below → m.reduced = none

variable {t : Table S} {c : Client S V ε σ} {m m' m₁ : Machine S V} {l : Ledger S V}
  {token : Token S V} {x y y' z : σ} {s : Nat} {v : V} {stack : List (Nat × V)}

namespace Machine

theorem unwound_select (select : m.select c y = .ok (token, m₁) z) :
    m₁.unwound t = m.unwound t := by
  rw [unwound, stack_select select, unwound]

namespace Unexpected

variable (unexpected : m.Unexpected t c y s token m₁ z)
include unexpected

theorem step_giveUp (unwound : m.unwound t = []) :
    ∃ diagnostics z', m.step t c y = .ok (.ended (.rejected diagnostics)) z' := by
  obtain ⟨v, stack, top⟩ := unexpected.top
  refine ⟨_, _, (step_recover top unexpected.select unexpected.unknown).trans (recover_giveUp ?_ ?_)⟩
  · rw [recovering_select unexpected.select, unexpected.steady]
  · rw [unwound_select unexpected.select, unwound]

theorem step_unwound {entry : Nat × V} {below : List (Nat × V)}
    (unwound : m.unwound t = entry :: below) :
    ∃ m' z', m.step t c y = .ok (.running m') z' ∧ m'.stack = entry :: below ∧
      m'.reduced = some ⟨Alphabet.error, c.blank, ""⟩ ∧ m'.lookahead = some token := by
  obtain ⟨v, stack, top⟩ := unexpected.top
  refine ⟨_, _, (step_recover top unexpected.select unexpected.unknown).trans
    (recover_unwound ?_ unexpected.more ?_), rfl, rfl, rfl⟩
  · rw [recovering_select unexpected.select, unexpected.steady]
  · rw [unwound_select unexpected.select, unwound]

end Unexpected

theorem action_of_unwound {entry : Nat × V} {below : List (Nat × V)}
    (unwound : m.unwound t = entry :: below) :
    entry ∈ m.stack ∧ t.action? entry.1 Alphabet.error ≠ none := by
  have found := m.stack.find?_not_eq_head?_dropWhile
    fun entry => (t.action? entry.1 Alphabet.error).isNone
  rw [← Machine.unwound, unwound, List.head?_cons] at found
  refine ⟨List.mem_of_find?_eq_some found, fun none => ?_⟩
  simpa [none] using List.find?_some found

theorem unwound_append {above below : List (Nat × V)} {entry : Nat × V}
    (shape : m.stack = above ++ entry :: below) (action : t.action? entry.1 Alphabet.error ≠ none) :
    m.unwound t = entry :: below ∨
      ∃ first rest, m.unwound t = first :: rest ∧ first ∈ above := by
  cases passed : above.dropWhile fun entry => (t.action? entry.1 Alphabet.error).isNone with
  | nil =>
      left
      rw [unwound, shape, List.dropWhile_append, passed]
      simpa [Option.isNone_iff_eq_none] using action
  | cons first rest =>
      refine .inr ⟨first, rest ++ entry :: below, ?_, ?_⟩
      · rw [unwound, shape, List.dropWhile_append, passed]
        rfl
      · exact (List.dropWhile_suffix _).subset (passed ▸ List.mem_cons_self)

theorem UnwindsRight.recovers (right : m.UnwindsRight t c y) : m.Recovers t c y where
  giveUp unexpected nowhere := by
    cases unwound : m.unwound t with
    | nil => exact unexpected.step_giveUp unwound
    | cons entry below =>
        exact (nowhere entry (action_of_unwound unwound).1 (right.catches unexpected unwound)).elim
  goOn unexpected := by
    intro above entry below target shape uncaught caught
    obtain unwound | ⟨first, rest, unwound, member⟩ :=
      unwound_append (t := t) shape (by rw [caught]; exact nofun)
    · obtain ⟨m', z', moved, stack, reduced, lookahead⟩ := unexpected.step_unwound unwound
      refine ⟨m', _, z', _, moved, step_shift stack (select_pending reduced) caught, ?_, ?_, ?_⟩
      · simp [stack]
      · simp
      · simpa using lookahead
    · exact (uncaught first member (right.catches unexpected unwound)).elim

theorem exists_nearest (caught : ∃ entry ∈ m.stack, t.Catches entry.1) :
    ∃ above entry below, m.stack = above ++ entry :: below ∧ t.Catches entry.1 ∧
      ∀ e ∈ above, ¬ t.Catches e.1 := by
  classical
  cases found : m.stack.find? fun entry => decide (t.Catches entry.1) with
  | none =>
      obtain ⟨entry, member, catches⟩ := caught
      simpa [catches] using List.find?_eq_none.1 found entry member
  | some entry =>
      obtain ⟨catches, above, below, shape, uncaught⟩ := List.find?_eq_some_iff_append.1 found
      exact ⟨above, entry, below, shape, by simpa using catches,
        fun e member => by simpa using uncaught e member⟩

theorem reduced_of_reduce {p : Nat} (top : m.stack = (s, v) :: stack)
    (pending : m.reduced = some token) (action : t.action? s token.symbol = some (.reduce p))
    (moved : m.step t c y = .ok (.running m') y') : m'.reduced.isSome := by
  rw [step_reduce top (select_pending pending) action] at moved
  obtain ⟨_, ended, _⟩ | ⟨_, _, _, _, _, _, _, _, _, progress⟩ := reduce_cases moved
  · cases ended
  · split at progress
    · cases progress
    · cases progress
      rfl

theorem Recovers.catches (recovers : m.Recovers t c y)
    (unexpected : m.Unexpected t c y s token m₁ z) {entry : Nat × V} {below : List (Nat × V)}
    (unwound : m.unwound t = entry :: below) : t.Catches entry.1 := by
  obtain ⟨m', z', moved, stack, reduced, _⟩ := unexpected.step_unwound unwound
  by_cases caught : ∃ e ∈ m.stack, t.Catches e.1
  · obtain ⟨above, e, rest, shape, ⟨target, catches⟩, uncaught⟩ := exists_nearest caught
    obtain ⟨_, m'', _, _, first, second, _, idle, _⟩ :=
      recovers.goOn unexpected shape uncaught catches
    cases moved.symm.trans first
    cases action : t.action? entry.1 Alphabet.error with
    | none => exact ((action_of_unwound unwound).2 action).elim
    | some a =>
        cases a with
        | shift target => exact ⟨target, action⟩
        | reduce p =>
            -- The reduction on the error symbol leaves its head behind, where nothing should be left.
            have pending := reduced_of_reduce stack reduced action second
            rw [idle] at pending
            cases pending
  · obtain ⟨_, _, ended⟩ := recovers.giveUp unexpected fun e member catches =>
      caught ⟨e, member, catches⟩
    cases moved.symm.trans ended

end Machine

def Machine.Expects (t : Table S) (m : Machine S V) : Prop :=
  ∀ symbol, m.reduced = some symbol → symbol.symbol ∈ t.heads ∨
    ∃ s v stack target, m.stack = (s, v) :: stack ∧
      t.action? s symbol.symbol = some (.shift target)

theorem Machine.Unexpected.of_select (top : m.stack = (s, v) :: stack)
    (select : m.select c y = .ok (token, m₁) z) (unknown : t.action? s token.symbol = none)
    (steady : m₁.recovering = false) (more : token.symbol ≠ Alphabet.endMark) :
    m.Unexpected t c y s token m₁ z :=
  ⟨⟨v, stack, top⟩, select, unknown, (Machine.recovering_select select).symm.trans steady, more⟩

section

variable (top : m.stack = (s, v) :: stack) (select : m.select c y = .ok (token, m₁) z)
  (moves : Moves t c s token m₁ m') (right : m.UnwindsRight t c y)
include top select moves right

theorem Moves.expects : m'.Expects t := by
  intro symbol pending
  have idle := Machine.reduced_select select
  cases moves with
  | shift =>
      rw [Machine.reduced_settle, idle] at pending
      cases pending
  | reduce _ _ known =>
      cases pending
      exact .inl (Array.mem_of_getElem? known)
  | discard =>
      rw [idle] at pending
      cases pending
  | unwind unknown steady more unwound =>
      cases pending
      rw [Machine.unwound_select select] at unwound
      obtain ⟨target, shifts⟩ := right.catches (.of_select top select unknown steady more) unwound
      exact .inr ⟨_, _, _, target, rfl, shifts⟩

theorem Moves.leaves (plain : ∀ head ∈ t.heads, ¬ t.ReducesOn head)
    (expects : m.Expects t) (pending : m.reduced.isSome) :
    (m.fate? t s token.symbol).isSome := by
  obtain ⟨symbol, reduced⟩ := Option.isSome_iff_exists.1 pending
  cases (Machine.select_pending reduced).symm.trans select
  unfold Machine.fate?
  cases moves with
  | shift action =>
      rw [action]
      rfl
  | reduce action =>
      obtain head | ⟨_, _, _, target, top', shifts⟩ := expects token reduced
      · exact (plain _ head ⟨_, _, action⟩).elim
      · cases top.symm.trans top'
        cases action.symm.trans shifts
  | discard unknown recovering =>
      rw [Machine.recovering_select select] at recovering
      rw [unknown, recovering]
      rfl
  | unwind unknown steady more unwound =>
      rw [Machine.unwound_select select] at unwound
      have none := right.source (.of_select top select unknown steady more) unwound
      cases reduced.symm.trans none

end

theorem Machine.fate?_ne_replaced (m : Machine S V) (s : Nat) (symbol : S) :
    m.fate? t s symbol ≠ some .replaced := by
  unfold Machine.fate?
  split
  · exact nofun
  · exact nofun
  · split <;> exact nofun

theorem Ledger.Intact.after (intact : l.Intact)
    (leaves : m.reduced.isSome → (m.fate? t s token.symbol).isSome) :
    (l.after t m s token).Intact := by
  cases fate : m.fate? t s token.symbol with
  | none =>
      cases reduced : m.reduced with
      | none =>
          rw [Ledger.after, fate, reduced, Intact, settled_take]
          exact intact
      | some symbol =>
          rw [fate, reduced] at leaves
          cases leaves rfl
  | some fate' =>
      cases reduced : m.reduced with
      | none =>
          rw [Ledger.after, fate, reduced]
          refine Intact.settle ?_ ?_
          · rw [Intact, settled_take]
            exact intact
          · rintro rfl
            exact m.fate?_ne_replaced s token.symbol fate
      | some symbol =>
          rw [Ledger.after, fate, reduced]
          exact intact

section

variable (right : ∀ {m l y}, Reached t c x m l y → m.UnwindsRight t c y)
include right

theorem Reached.expects (reached : Reached t c x m l y) : m.Expects t := by
  cases reached with
  | start => exact nofun
  | step reached top select moved =>
      exact (Moves.of_select top select moved).expects top select (right reached)

theorem Reached.intact (plain : ∀ head ∈ t.heads, ¬ t.ReducesOn head)
    (reached : Reached t c x m l y) : l.Intact := by
  induction reached with
  | start => exact nofun
  | step reached top select moved ih =>
      have leaves := (Moves.of_select top select moved).leaves top select (right reached) plain
      exact ih.after (leaves (reached.expects right))

end

theorem NothingLost.unwindsRight (nothing : NothingLost t c x) (reached : Reached t c x m l y) :
    m.UnwindsRight t c y where
  catches unexpected unwound := (nothing.recovers reached).catches unexpected unwound
  source := by
    intro s token m₁ z entry below unexpected unwound
    cases reduced : m.reduced with
    | none => rfl
    | some symbol =>
        exfalso
        -- The token behind the pending symbol loses its slot to it.
        obtain ⟨v, stack, top⟩ := unexpected.top
        obtain ⟨m', z', moved, _⟩ := unexpected.step_unwound unwound
        have stays : m.fate? t s token.symbol = none := by
          rw [Machine.fate?, unexpected.unknown, unexpected.steady]
          rfl
        have intact := (nothing.complete (reached.step top unexpected.select moved)).2
        rw [Ledger.after, stays, reduced] at intact
        exact reached.tracks.not_intact_settle reduced intact

structure Machine.Coherent (t : Table S) (m : Machine S V) : Prop where
  linked : m.stack.IsChain fun upper lower =>
    ∃ symbol, t.action? lower.1 symbol = some (.shift upper.1)
  pending : ∀ symbol, m.reduced = some symbol →
    ∃ s v stack, m.stack = (s, v) :: stack ∧ t.action? s symbol.symbol ≠ none

theorem Table.mem_under_of_drop {n : Nat} {entry : Nat × V} {below : List (Nat × V)}
    (linked : ((s, v) :: stack).IsChain fun upper lower =>
      ∃ symbol, t.action? lower.1 symbol = some (.shift upper.1))
    (rest : ((s, v) :: stack).drop n = entry :: below) : entry.1 ∈ t.under n s := by
  induction n generalizing s v stack with
  | zero =>
      cases rest
      exact List.mem_singleton_self _
  | succ n ih =>
      cases stack with
      | nil => cases (List.drop_nil).symm.trans rest
      | cons lower stack =>
          obtain ⟨⟨symbol, action⟩, linked⟩ := List.isChain_cons_cons.1 linked
          refine List.mem_flatMap.2 ⟨(lower.1, symbol, .shift s), ?_, ih linked rest⟩
          exact List.mem_filter.2 ⟨Table.mem_entries.2 action, by simp⟩

theorem Moves.coherent (moves : Moves t c s token m₁ m') (top : m.stack = (s, v) :: stack)
    (select : m.select c y = .ok (token, m₁) z) (continues : t.Continues)
    (coherent : m.Coherent t) : m'.Coherent t := by
  have linked := coherent.linked
  rw [← Machine.stack_select select] at linked top
  have idle := Machine.reduced_select select
  cases moves with
  | shift action =>
      refine ⟨?_, fun symbol pending => ?_⟩
      · rw [top] at linked ⊢
        exact List.isChain_cons_cons.2 ⟨⟨_, action⟩, linked⟩
      · rw [Machine.reduced_settle, idle] at pending
        cases pending
  | @reduce p length head value entry below action more known size rest =>
      refine ⟨?_, fun symbol pending => ?_⟩
      · show List.IsChain _ (entry :: below)
        rw [← rest]
        exact linked.drop length
      · cases pending
        rw [top] at linked rest
        obtain ⟨bound, _⟩ := Array.getElem?_eq_some_iff.1 known
        exact ⟨_, _, _, rfl, continues _ (Table.mem_entries.2 action) p bound rfl more head known
          length size _ (Table.mem_under_of_drop linked rest)⟩
  | discard =>
      refine ⟨linked, fun symbol pending => ?_⟩
      rw [idle] at pending
      cases pending
  | unwind _ _ _ unwound =>
      refine ⟨?_, fun symbol pending => ?_⟩
      · show List.IsChain _ (_ :: _)
        rw [← unwound]
        exact linked.suffix (List.dropWhile_suffix _)
      · cases pending
        exact ⟨_, _, _, rfl, (Machine.action_of_unwound unwound).2⟩

theorem Reached.coherent (continues : t.Continues) (reached : Reached t c x m l y) :
    m.Coherent t := by
  induction reached with
  | start => exact ⟨List.isChain_singleton _, nofun⟩
  | step _ top select moved ih =>
      exact (Moves.of_select top select moved).coherent top select continues ih

theorem Machine.Coherent.unwindsRight (coherent : m.Coherent t)
    (shifted : ¬ t.ReducesOn Alphabet.error) : m.UnwindsRight t c y where
  catches := by
    intro s token m₁ z entry below _ unwound
    cases action : t.action? entry.1 Alphabet.error with
    | none => exact ((Machine.action_of_unwound unwound).2 action).elim
    | some a =>
        cases a with
        | shift target => exact ⟨target, action⟩
        | reduce p => exact (shifted ⟨_, _, action⟩).elim
  source := by
    intro s token m₁ z entry below unexpected _
    cases reduced : m.reduced with
    | none => rfl
    | some symbol =>
        obtain ⟨_, _, top⟩ := unexpected.top
        cases (Machine.select_pending reduced).symm.trans unexpected.select
        obtain ⟨_, _, _, top', expected⟩ := coherent.pending token reduced
        cases top.symm.trans top'
        exact (expected unexpected.unknown).elim

/-- If no state reduces on the head of a production, nothing is lost exactly if the parser always
unwinds for a token of the source, to a state that can shift the error symbol. This is so if the
table continues after each reduction, and no state reduces on the error symbol. -/
theorem nothingLost_iff (plain : ∀ head ∈ t.heads, ¬ t.ReducesOn head)
    (c : Client S V ε σ) (x : σ) :
    (NothingLost t c x ↔ ∀ m l y, Reached t c x m l y → m.UnwindsRight t c y) ∧
      (t.Continues → ¬ t.ReducesOn Alphabet.error → NothingLost t c x) := by
  have nothing (right : ∀ m l y, Reached t c x m l y → m.UnwindsRight t c y) :
      NothingLost t c x := by
    have complete {m : Machine S V} {l : Ledger S V} {y : σ} (reached : Reached t c x m l y) :
        l.Balanced ∧ l.Intact :=
      ⟨reached.tracks.balanced, reached.intact (fun reached => right _ _ _ reached) plain⟩
    refine ⟨fun reached => (right _ _ _ reached).recovers, complete, fun ended => ?_⟩
    obtain ⟨l, ran⟩ := exists_ran_of_parse ended
    refine ⟨l, ran, ?_⟩
    cases ran with
    | @ended m l y z verdict reached =>
        rw [Ledger.final]
        split
        · refine ⟨reached.tracks.balanced_take _, ?_⟩
          rw [Ledger.Intact, Ledger.settled_take]
          exact (complete reached).2
        · exact complete reached
  refine ⟨⟨fun nothing m l y reached => nothing.unwindsRight reached, nothing⟩, fun continues shifted =>
    nothing fun m l y reached => ?_⟩
  exact (reached.coherent continues).unwindsRight shifted

def Client.words : Client String Unit Empty (List String) where
  blank := ()
  next
    | [] => .ok ⟨Alphabet.endMark, (), ""⟩ []
    | word :: words => .ok ⟨word, (), word⟩ words
  reduce _ _ := pure ()
  report _ := id
  observe _ := id

/-- Sums of numbers, in which a number that is missing is made up for. -/
def sumTable : Table String where
  rows := #[[("E", .shift 1), ("error", .shift 3), ("n", .shift 2)],
    [("+", .shift 4), ("$", .reduce 0)],
    [("+", .reduce 2), ("$", .reduce 2)],
    [("+", .reduce 3), ("$", .reduce 3)],
    [("n", .shift 5)],
    [("+", .reduce 1), ("$", .reduce 1)]]
  heads := #["S", "E", "E", "E"]
  lengths := #[1, 3, 1, 1]

theorem nothingLost_sumTable :
    Table.ofRows [[("n", "s2"), ("error", "s3"), ("E", "s1")], [("$", "r0"), ("+", "s4")],
      [("$", "r2"), ("+", "r2")], [("$", "r3"), ("+", "r3")], [("n", "s5")],
      [("$", "r1"), ("+", "r1")]] ["S", "E", "E", "E"] [1, 3, 1, 1] = .ok sumTable ∧
    (∀ head ∈ sumTable.heads, ¬ sumTable.ReducesOn head) ∧
    ∀ words, NothingLost sumTable Client.words words := by
  have plain : ∀ head ∈ sumTable.heads, ¬ sumTable.ReducesOn head := by decide +kernel
  refine ⟨rfl, plain, fun words => ?_⟩
  exact (nothingLost_iff plain _ _).2 (by decide +kernel) (by decide +kernel)

/-- After `n` the error symbol is reduced on, where it should be shifted below. -/
def rashTable : Table String where
  rows := #[[("E", .shift 4), ("error", .shift 2), ("n", .shift 1)],
    [("error", .reduce 1), ("$", .reduce 1)],
    [("x", .shift 3)],
    [("$", .reduce 2)],
    [("$", .reduce 0)]]
  heads := #["S", "E", "E"]
  lengths := #[1, 1, 2]

/-- The parser does not get to `x`, which fits after the error symbol: the token is lost. -/
theorem rashTable_loses :
    Table.ofRows [[("n", "s1"), ("error", "s2"), ("E", "s4")], [("$", "r1"), ("error", "r1")],
      [("x", "s3")], [("$", "r2")], [("$", "r0")]] ["S", "E", "E"] [1, 1, 2] = .ok rashTable ∧
    (∀ head ∈ rashTable.heads, ¬ rashTable.ReducesOn head) ∧
    ¬ NothingLost rashTable Client.words ["n", "x"] := by
  refine ⟨rfl, by decide +kernel, fun nothing => ?_⟩
  have fresh : Reached rashTable Client.words ["n", "x"] (.initial ()) {} ["n", "x"] := .start
  have shifted := fresh.step rfl rfl rfl
  have unwound := shifted.step rfl rfl rfl
  have reduced := unwound.step rfl rfl rfl
  exact (nothing.complete reduced).2 (⟨"x", (), "x"⟩, .replaced)
    (List.mem_cons_of_mem _ List.mem_cons_self) rfl

example : parse rashTable Client.words 9 ["n", "x"] =
    some (.rejected [.unexpected "x" "x", .unexpected "error" ""], []) := by rfl

end LongestMatch.Parse
