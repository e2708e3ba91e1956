import Mathlib
import LongestMatch.Proofs.Fragment.Accept
import LongestMatch.Proofs.Pattern.Accepted

namespace LongestMatch.Pattern

open Build Recorded

def automaton (source : String) (dotMatchesAny : Bool) (id : HandlerId) : Build (Automaton Unit) := do
  let f ← compile source dotMatchesAny
  f.accept id
  let (states, first) ← (← current).determinizeRecorded f.entry none
  return { graph := states, start := first }

variable {dotMatchesAny : Bool} {source : String} {b : Body}

theorem yields_determinizeRecorded {g states : Graph} {p first : NodeId} {limit : Option Nat}
    (result : g.determinize p limit = .ok (states, first)) (h : Graph) :
    Yields (g.determinizeRecorded p limit) h (states, first) h := by
  intro log
  refine ⟨log.push (.determinized g.size states.size), ?_⟩
  rw [Graph.determinizeRecorded, result]
  rfl

theorem yields_automaton (spelled : b.Spelled dotMatchesAny source) (g : Graph) (id : HandlerId) :
    ∃ a h, Yields (automaton source dotMatchesAny id) g a h ∧ a.Single ∧
      ∀ word, a.graph.Accepts a.start word ↔ word ∈ b.language true := by
  obtain ⟨f, h₁, compiled, owns, _⟩ := makes_compile spelled g
  obtain ⟨h₂, accept, answers, _, _⟩ := owns.accept id
  obtain ⟨states, first, result, single, inside, accepts⟩ := answers.determinize
  refine ⟨{ graph := states, start := first }, h₂, ?_, ⟨inside, single⟩, accepts⟩
  exact compiled.bind (accept.bind ((yields_current h₂).bind
    ((yields_determinizeRecorded result h₂).bind (yields_pure _ _))))

theorem exists_automaton {f : Fragment} {x y : Logged Graph}
    (compiled : compile source dotMatchesAny x = .ok f y) (id : HandlerId) :
    ∃ a z, automaton source dotMatchesAny id x = .ok a z ∧ a.Single ∧
      ∀ b : Body, b.Spelled dotMatchesAny source →
        ∀ word, a.graph.Accepts a.start word ↔ word ∈ b.language true := by
  obtain ⟨b, spelled⟩ := exists_spelled compiled
  obtain ⟨a, h, made, single, _⟩ := yields_automaton spelled x.state id
  obtain ⟨log, made⟩ := made x.log
  refine ⟨a, ⟨h, log⟩, made, single, fun b' spelled' => ?_⟩
  obtain ⟨a', h', made', _, accepts⟩ := yields_automaton spelled' x.state id
  obtain ⟨log', made'⟩ := made' x.log
  rw [made] at made'
  cases made'
  exact accepts

theorem matches_iff_mem_language {f : Fragment} {x y : Logged Graph}
    (compiled : compile source dotMatchesAny x = .ok f y) (id : HandlerId) :
    (∃ b : Body, b.Spelled dotMatchesAny source) ∧ ∃ a z,
      automaton source dotMatchesAny id x = .ok a z ∧ ∀ text : String, ∃ yes,
        a.matches? text = .ok yes ∧ (yes = true → ∀ c ∈ text.toList, c.toNat ≤ maxCode) ∧
          ∀ b : Body, b.Spelled dotMatchesAny source →
            (yes = true ↔ codes text.toList ∈ b.language true) := by
  obtain ⟨a, z, made, single, accepts⟩ := exists_automaton compiled id
  refine ⟨exists_spelled compiled, a, z, made, fun text => ?_⟩
  obtain ⟨yes, matched, yes_iff⟩ := single.matchesFrom_eq single.start text.toList
  refine ⟨yes, matched, fun accepted c member => ?_, fun b spelled => ?_⟩
  · obtain ⟨n, walk, _⟩ := yes_iff.1 accepted
    exact Graph.le_of_walk walk c.toNat (List.mem_map_of_mem member)
  · rw [yes_iff, accepts b spelled]

theorem matches_iff_mem_language_alternation :
    ∃ f y, compile "a|b(c)" true { state := ∅ } = .ok f y ∧
      (∃ b : Body, b.Spelled true "a|b(c)") ∧ ∃ a z,
        automaton "a|b(c)" true 0 { state := ∅ } = .ok a z ∧ ∀ text : String, ∃ yes,
          a.matches? text = .ok yes ∧ (yes = true → ∀ c ∈ text.toList, c.toNat ≤ maxCode) ∧
            ∀ b : Body, b.Spelled true "a|b(c)" →
              (yes = true ↔ codes text.toList ∈ b.language true) := by
  obtain ⟨f, y, compiled⟩ := exists_of_succeeds
    (by cbv : succeeds (compile "a|b(c)" true { state := ∅ }) = true)
  exact ⟨f, y, compiled, matches_iff_mem_language compiled 0⟩

end LongestMatch.Pattern
