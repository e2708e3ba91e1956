import Mathlib.Logic.Relation
import LongestMatch.Proofs.Determinize.Subsets

namespace LongestMatch.Graph

namespace Subsets

inductive Proceeds (g : Graph) (limit : Option Nat) : Subsets → Subsets → Prop
  | resolve {s s' : Subsets} {set : List NodeId} {state : NodeId} :
      s.resolve g limit set = .ok (state, s') → Proceeds g limit s s'
  | change (s : Subsets) (state : NodeId) (f : Node → Node) :
      Proceeds g limit s { s with states := s.states.modify state f }

abbrev Leads (g : Graph) (limit : Option Nat) : Subsets → Subsets → Prop :=
  Relation.ReflTransGen (Proceeds g limit)

variable {g : Graph} {limit : Option Nat} {s s' t t' : Subsets} {set : List NodeId} {state : NodeId}

theorem resolve_cases (resolved : s.resolve g limit set = .ok (state, s')) :
    (∃ name, s.memo.find? (signature set, 0) = some (name, state)) ∧ s' = s ∨
      s.memo.find? (signature set, 0) = none ∧ state = s.states.size ∧ s' = s.push g set := by
  rw [Subsets.resolve] at resolved
  cases found : s.memo.find? (signature set, 0) with
  | some entry =>
      rw [found] at resolved
      cases resolved
      exact .inl ⟨⟨entry.1, rfl⟩, rfl⟩
  | none =>
      simp only [found] at resolved
      cases full : limit.filter (· ≤ s.states.size) with
      | some bound =>
          rw [full] at resolved
          cases resolved
      | none =>
          rw [full] at resolved
          cases resolved
          exact .inr ⟨rfl, rfl, rfl⟩

theorem Keyed.resolve (keyed : s.Keyed) (resolved : s.resolve g limit set = .ok (state, s')) :
    s'.Keyed ∧ s'.StandsFor state set ∧
      ∀ q other, s.StandsFor q other → s'.StandsFor q other := by
  rcases resolve_cases resolved with ⟨⟨name, found⟩, rfl⟩ | ⟨new, rfl, rfl⟩
  · exact ⟨keyed, ((keyed.memo set _).1 found).2, fun _ _ => id⟩
  · exact ⟨keyed.push g new, standsFor_push.2 (.inr ⟨keyed.size, rfl⟩),
      fun _ _ known => standsFor_push.2 (.inl known)⟩

theorem Keyed.proceeds (keyed : s.Keyed) (step : Proceeds g limit s s') :
    s'.Keyed ∧ ∀ q other, s.StandsFor q other → s'.StandsFor q other := by
  cases step with
  | resolve resolved =>
      obtain ⟨keyed', _, kept⟩ := keyed.resolve resolved
      exact ⟨keyed', kept⟩
  | change state f => exact ⟨keyed.modify state f, fun _ _ => id⟩

theorem Keyed.leads (keyed : s.Keyed) (run : Leads g limit s s') :
    s'.Keyed ∧ ∀ q other, s.StandsFor q other → s'.StandsFor q other := by
  induction run with
  | refl => exact ⟨keyed, fun _ _ => id⟩
  | tail _ step ih =>
      obtain ⟨keyed', kept⟩ := ih
      obtain ⟨keyed'', kept'⟩ := keyed'.proceeds step
      exact ⟨keyed'', fun q other known => kept' q other (kept q other known)⟩

theorem resolve_eq_iff {a b : List NodeId} {p q : NodeId} (begun : Leads g limit {} s)
    (first : s.resolve g limit a = .ok (p, s')) (between : Leads g limit s' t)
    (second : t.resolve g limit b = .ok (q, t')) : p = q ↔ a = b := by
  obtain ⟨keyed, _⟩ := keyed_empty.leads begun
  obtain ⟨keyed', known, _⟩ := keyed.resolve first
  obtain ⟨keyed'', kept⟩ := keyed'.leads between
  obtain ⟨last, known', kept'⟩ := keyed''.resolve second
  have still := kept' p a (kept p a known)
  constructor
  · rintro rfl
    exact still.unique known'
  · rintro rfl
    exact last.injective still known'

theorem leads_link (edges : List Edge) (linked : s.link g limit state edges = .ok s') :
    Leads g limit s s' := by
  induction edges generalizing s with
  | nil =>
      cases linked
      exact .refl
  | cons e edges ih =>
      rw [Subsets.link] at linked
      obtain ⟨set, _, linked⟩ := bind_ok_cases linked
      obtain ⟨⟨target, t⟩, resolved, linked⟩ := bind_ok_cases linked
      exact .head (.resolve resolved) (.head (.change t state _) (ih linked))

theorem leads_expand (expanded : s.expand g limit state set = .ok s') : Leads g limit s s' :=
  .head (.change s state _) (leads_link _ expanded)

theorem leads_finish (bound : Nat) (finished : s.finish g limit bound state = .ok s') :
    Leads g limit s s' := by
  induction bound generalizing s state with
  | zero =>
      rw [Subsets.finish] at finished
      split at finished
      · cases finished
        exact .refl
      · cases finished
  | succ bound ih =>
      rw [Subsets.finish] at finished
      split at finished
      · cases finished
        exact .refl
      · obtain ⟨t, expanded, finished⟩ := bind_ok_cases finished
        exact (leads_expand expanded).trans (ih finished)

theorem leads_determinize {start first : NodeId} {states : Graph}
    (determinized : g.determinize start limit = .ok (states, first)) :
    ∃ s, Leads g limit {} s ∧ s.states = states := by
  obtain ⟨set, _, determinized⟩ := bind_ok_cases determinized
  obtain ⟨⟨state, s⟩, resolved, determinized⟩ := bind_ok_cases determinized
  obtain ⟨s', finished, determinized⟩ := bind_ok_cases determinized
  cases determinized
  exact ⟨s', .head (.resolve resolved) (leads_finish _ finished), rfl⟩

theorem signature_distinguishes : Function.Injective signature ∧
    (∀ (g : Graph) (limit : Option Nat) (s s' t t' : Subsets) (a b : List NodeId) (p q : NodeId),
      Leads g limit {} s → s.resolve g limit a = .ok (p, s') →
        Leads g limit s' t → t.resolve g limit b = .ok (q, t') → (p = q ↔ a = b)) ∧
    ∀ (g : Graph) (start : NodeId) (limit : Option Nat) (states : Graph) (first : NodeId),
      g.determinize start limit = .ok (states, first) → ∃ s, Leads g limit {} s ∧ s.states = states :=
  ⟨signature_injective,
    fun _ _ _ _ _ _ _ _ _ _ begun first between second => resolve_eq_iff begun first between second,
    fun _ _ _ _ _ => leads_determinize⟩

def lone : Graph where
  nodes := #[{}]

/-- Without the comma these two sets would have the same name. -/
theorem signature_distinguishes_digits :
    (∃ s t, resolve lone (some 2) [1, 12] {} = .ok (0, s) ∧ resolve lone (some 2) [11, 2] s = .ok (1, t) ∧
      ((0 : NodeId) = 1 ↔ [1, 12] = [11, 2])) ∧
    ∃ states, lone.determinize 0 none = .ok (states, 0) ∧ ∃ s, Leads lone none {} s ∧ s.states = states := by
  have first : resolve lone (some 2) [1, 12] {} = .ok (0, push lone [1, 12] {}) := rfl
  have second : resolve lone (some 2) [11, 2] (push lone [1, 12] {}) =
      .ok (1, push lone [11, 2] (push lone [1, 12] {})) := rfl
  have built : lone.determinize 0 none = .ok (lone, 0) := rfl
  obtain ⟨_, apart, runs⟩ := signature_distinguishes
  exact ⟨⟨_, _, first, second, apart lone (some 2) _ _ _ _ _ _ _ _ .refl first .refl second⟩,
    lone, built, runs lone 0 none lone 0 built⟩

end Subsets

end LongestMatch.Graph
