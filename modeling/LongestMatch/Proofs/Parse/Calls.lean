import LongestMatch.Proofs.Parse.Ledger
import LongestMatch.Proofs.Parse.Lockstep

namespace LongestMatch.Parse

structure Call (V : Type) where
  production : Nat
  values : List V
  value : V
  deriving DecidableEq, Repr

variable {S V ε σ : Type}

def Client.recorded (c : Client S V ε σ) : Client S V ε (σ × List (Call V)) where
  blank := c.blank
  next := fun (y, calls) =>
    match c.next y with
    | .ok token y => .ok token (y, calls)
    | .error e y => .error e (y, calls)
  reduce production values := fun (y, calls) =>
    match c.reduce production values y with
    | .ok value y => .ok value (y, calls ++ [⟨production, values, value⟩])
    | .error e y => .error e (y, calls)
  report diagnostic := Prod.map (c.report diagnostic) id
  observe move := Prod.map (c.observe move) id

theorem Client.shadows_recorded (c : Client S V ε σ) : c.Shadows c.recorded where
  blank := rfl
  next := by
    rintro _ ⟨x, calls⟩ rfl
    unfold Client.recorded
    dsimp only
    cases c.next x with
    | ok token y => exact .ok rfl rfl
    | error e y => exact .error rfl
  reduce p values := by
    rintro _ ⟨x, calls⟩ rfl
    rw [List.map_id]
    unfold Client.recorded
    dsimp only
    cases c.reduce p values x with
    | ok value y => exact .ok rfl rfl
    | error e y => exact .error rfl
  report _ := by
    rintro _ w rfl
    rfl
  observe _ := by
    rintro _ w rfl
    rfl

variable [Alphabet S] {t : Table S} {c : Client S V ε σ} {m : Machine S V} {l : Ledger S V}
  {x y : σ}

theorem Reached.exists_recorded (reached : Reached t c x m l y) :
    ∃ calls, Reached t c.recorded (x, []) m l (y, calls) := by
  induction reached with
  | start => exact ⟨[], .start⟩
  | step _ top select moved ih =>
      obtain ⟨calls, reached⟩ := ih
      obtain ⟨_, select'⟩ := c.shadows_recorded.select select calls
      obtain ⟨calls', moved'⟩ := c.shadows_recorded.step moved calls
      exact ⟨calls', reached.step top select' moved'⟩

theorem exists_parse_recorded {bound : Nat} {verdict : Verdict V ε} {z : σ}
    (ended : parse t c bound x = some (verdict, z)) :
    ∃ calls, parse t c.recorded bound (x, []) = some (verdict, (z, calls)) :=
  c.shadows_recorded.parse ended []

end LongestMatch.Parse
