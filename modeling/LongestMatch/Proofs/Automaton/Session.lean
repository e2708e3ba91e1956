import LongestMatch.Automaton.Session
import LongestMatch.Proofs.Build
import LongestMatch.Proofs.Parse.Step

namespace LongestMatch

open Parse (bind_eq_ok)
open Build (ofExcept_eq_ok)

namespace Session

variable {R κ : Type} {s : Session R κ} {x y : Logged (Session R κ)}

theorem next_cases {found : Scan R} (scanned : next x = .ok found y) :
    (∃ caller, y.state = { x.state with caller }) ∨ ∃ length, y.state = x.state.advance length := by
  obtain ⟨s, _, current, rest⟩ := bind_eq_ok.1 scanned
  cases current
  cases text : x.state.rest with
  | nil =>
      simp only [text] at rest
      cases rest
      exact .inl ⟨_, rfl⟩
  | cons c cs =>
      simp only [text] at rest
      obtain ⟨longest, _, searched, rest⟩ := bind_eq_ok.1 rest
      obtain ⟨_, rfl⟩ := ofExcept_eq_ok.1 searched
      cases longest with
      | none =>
          cases rest
          exact .inl ⟨_, rfl⟩
      | some m =>
          obtain ⟨entry, _, preferred, rest⟩ := bind_eq_ok.1 rest
          obtain ⟨_, rfl⟩ := ofExcept_eq_ok.1 preferred
          cases rest
          exact .inr ⟨m.length, rfl⟩

theorem skip_cases {c : Option Char} (skipped : skip x = .ok c y) :
    y.state = x.state ∨ y.state = x.state.advance 1 := by
  obtain ⟨s, _, current, rest⟩ := bind_eq_ok.1 skipped
  cases current
  cases text : x.state.rest with
  | nil =>
      simp only [text] at rest
      cases rest
      exact .inl rfl
  | cons c cs =>
      simp only [text] at rest
      cases rest
      exact .inr rfl

theorem next_of_rest_eq_nil (finished : s.rest = []) (log : Array Event) :
    next ⟨s, log⟩ = .ok .finished ⟨{ s with caller := s.onEnd.getD id s.caller }, log⟩ := by
  obtain ⟨a, source, rest, position, onEnd, caller⟩ := s
  cases finished
  rfl

theorem next_of_longest_eq_none {c : Char} {cs : List Char} (text : s.rest = c :: cs)
    (longest : s.automaton.longest s.rest = .ok none) (log : Array Event) :
    next ⟨s, log⟩ = .ok (.unrecognized ⟨c, s.position⟩) ⟨s, log⟩ := by
  obtain ⟨a, source, rest, position, onEnd, caller⟩ := s
  cases text
  exact bind_eq_ok.2 ⟨_, _, rfl, bind_eq_ok.2 ⟨none, _, ofExcept_eq_ok.2 ⟨longest, rfl⟩, rfl⟩⟩

theorem next_of_longest_eq_some {m : Automaton.Match} {entry : String × (String → R)}
    (more : s.rest ≠ []) (longest : s.automaton.longest s.rest = .ok (some m))
    (preferred : s.automaton.preferred m.node = .ok entry) (log : Array Event) :
    next ⟨s, log⟩ = .ok (.token (entry.2 (String.ofList (s.rest.take m.length))))
      ⟨s.advance m.length,
        log.push (.matched (String.ofList (s.rest.take m.length)) s.position entry.1)⟩ := by
  obtain ⟨c, cs, text⟩ := List.exists_cons_of_ne_nil more
  obtain ⟨a, source, rest, position, onEnd, caller⟩ := s
  obtain ⟨tag, handler⟩ := entry
  cases text
  exact bind_eq_ok.2 ⟨_, _, rfl, bind_eq_ok.2 ⟨some m, _, ofExcept_eq_ok.2 ⟨longest, rfl⟩,
    bind_eq_ok.2 ⟨(tag, handler), _, ofExcept_eq_ok.2 ⟨preferred, rfl⟩, rfl⟩⟩⟩

theorem skip_of_rest_eq_nil (finished : s.rest = []) (log : Array Event) :
    skip ⟨s, log⟩ = .ok none ⟨s, log⟩ := by
  obtain ⟨a, source, rest, position, onEnd, caller⟩ := s
  cases finished
  rfl

theorem skip_of_rest_eq_cons {c : Char} {cs : List Char} (text : s.rest = c :: cs)
    (log : Array Event) :
    skip ⟨s, log⟩ = .ok (some c) ⟨s.advance 1, log.push (.skipped c s.position)⟩ := by
  obtain ⟨a, source, rest, position, onEnd, caller⟩ := s
  cases text
  rfl

end Session

end LongestMatch
