import LongestMatch.Proofs.Automaton.Session
import LongestMatch.Proofs.Lexer.Assembled

namespace LongestMatch

theorem utf8Length_append (first second : List Char) :
    utf8Length (first ++ second) = utf8Length first + utf8Length second := by
  induction first with
  | nil => exact (Nat.zero_add _).symm
  | cons c cs ih =>
      show c.utf8Size + utf8Length (cs ++ second) = c.utf8Size + utf8Length cs + utf8Length second
      rw [ih, Nat.add_assoc]

namespace Session

variable {R κ : Type} {a : Automaton R} {source : String} {s : Session R κ}

inductive Reached (a : Automaton R) (source : String) : Session R κ → Prop
  | start {s : Session R κ} : s.automaton = a → Reached a source (s.withSource source)
  | next {x y : Logged (Session R κ)} {found : Scan R} :
      Reached a source x.state → Session.next x = .ok found y → Reached a source y.state
  | skip {x y : Logged (Session R κ)} {c : Option Char} :
      Reached a source x.state → Session.skip x = .ok c y → Reached a source y.state

structure Scans (s : Session R κ) (a : Automaton R) (source : String) : Prop where
  automaton : s.automaton = a
  cursor : ∃ done, source.toList = done ++ s.rest ∧ s.position = utf8Length done

theorem Scans.advance (scans : s.Scans a source) (length : Nat) : (s.advance length).Scans a source where
  automaton := scans.automaton
  cursor := by
    obtain ⟨done, text, position⟩ := scans.cursor
    refine ⟨done ++ s.rest.take length, ?_, ?_⟩
    · rw [text, List.append_assoc, Session.advance, List.take_append_drop]
    · rw [utf8Length_append, ← position, Session.advance]

theorem Reached.scans (reached : s.Reached a source) : s.Scans a source := by
  induction reached with
  | start same => exact ⟨same, [], rfl, rfl⟩
  | next _ scanned ih =>
      rcases next_cases scanned with ⟨caller, state⟩ | ⟨length, state⟩
      · rw [state]
        exact ⟨ih.automaton, ih.cursor⟩
      · rw [state]
        exact ih.advance length
  | skip _ skipped ih =>
      rcases skip_cases skipped with state | state
      · rwa [state]
      · rw [state]
        exact ih.advance 1

end Session

namespace Lexer

variable {R σ κ : Type} {l : Lexer R} {a : Automaton R} {text : List Char}

structure Munch (l : Lexer R) (text : List Char) (length id : Nat) : Prop where
  positive : 0 < length
  length_le : length ≤ text.length
  reads : l.Reads id (text.take length)
  first : ∀ j < id, ¬ l.Reads j (text.take length)
  longest : ∀ k, length < k → k ≤ text.length → ∀ j, ¬ l.Reads j (text.take k)

theorem Assembled.accepts_iff (assembled : l.Assembled a) (text : List Char) :
    a.graph.Accepts a.start (codes text) ↔ ∃ id, l.Reads id text := by
  constructor
  · rintro ⟨n, walk, accepted⟩
    obtain ⟨id, member⟩ := List.exists_mem_of_ne_nil _ (Node.isAccepting_iff.1 accepted)
    exact ⟨id, (assembled.handlers text n walk id).1 member⟩
  · rintro ⟨id, read⟩
    cases walk : a.graph.walk a.start (codes text) with
    | none => exact (assembled.stuck text walk id read).elim
    | some n =>
        have member := (assembled.handlers text n walk id).2 read
        exact ⟨n, walk, Node.isAccepting_iff.2 (List.ne_nil_of_mem member)⟩

theorem Assembled.munch (assembled : l.Assembled a) {m : Automaton.Match}
    (longest : a.Longest a.start text m) : ∃ rule id,
      a.preferred m.node = .ok (rule.tag, rule.handler) ∧ l.rules[id]? = some rule ∧
        l.Munch text m.length id := by
  have inside := assembled.single.walk_lt assembled.single.start longest.walk
  have reads := assembled.handlers _ _ longest.walk
  have ascending := assembled.ascending m.node
  obtain ⟨id, more, handlers⟩ :=
    List.exists_cons_of_ne_nil (Node.isAccepting_iff.1 longest.accepting)
  rw [handlers] at reads ascending
  obtain ⟨rule, found, matched⟩ := (reads id).1 List.mem_cons_self
  refine ⟨rule, id, Automaton.preferred_eq inside handlers ?_, found, longest.positive,
    longest.length_le, ⟨rule, found, matched⟩, fun j before read' => ?_, fun k longer le j read' => ?_⟩
  · rw [HandlerTable.entry?, ← Array.getElem?_toList, assembled.entries, List.getElem?_map, found]
    rfl
  · rcases List.mem_cons.1 ((reads j).2 read') with rfl | later
    · exact Nat.lt_irrefl _ before
    · exact Nat.lt_asymm before ((List.pairwise_cons.1 ascending).1 j later)
  · exact longest.longest k longer le ((assembled.accepts_iff _).2 ⟨j, read'⟩)

/-- A call finishes at the end of the text, scans the longest match of the first rule if any rule
matches a beginning of the rest, and else names the next character and leaves the session. -/
structure ScansNext (l : Lexer R) (s : Session R κ) (log : Array Event) : Prop where
  finished : s.rest = [] → Session.next ⟨s, log⟩ =
    .ok .finished ⟨{ s with caller := s.onEnd.getD id s.caller }, log⟩
  token : (∃ k j, 0 < k ∧ k ≤ s.rest.length ∧ l.Reads j (s.rest.take k)) →
    ∃ k j rule log', l.Munch s.rest k j ∧ l.rules[j]? = some rule ∧
      Session.next ⟨s, log⟩ = .ok (.token (rule.handler (String.ofList (s.rest.take k))))
        ⟨{ s with
            rest := s.rest.drop k
            position := s.position + utf8Length (s.rest.take k) }, log'⟩
  unrecognized : ∀ c cs, s.rest = c :: cs →
    (¬ ∃ k j, 0 < k ∧ k ≤ s.rest.length ∧ l.Reads j (s.rest.take k)) →
      Session.next ⟨s, log⟩ = .ok (.unrecognized ⟨c, s.position⟩) ⟨s, log⟩

theorem Assembled.scansNext (assembled : l.Assembled a) {s : Session R κ} (same : s.automaton = a)
    (log : Array Event) : l.ScansNext s log := by
  subst same
  obtain ⟨found, searched, ⟨m, longest, rfl⟩ | ⟨unmatched, rfl⟩⟩ :=
    assembled.single.longest_eq s.rest
  · obtain ⟨rule, id, preferred, known, munch⟩ := assembled.munch longest
    refine ⟨fun finished => Session.next_of_rest_eq_nil finished log, fun _ => ?_, fun _ _ _ none => ?_⟩
    · have more : s.rest ≠ [] := fun finished => by
        have := munch.length_le
        rw [finished] at this
        exact Nat.not_lt.2 this munch.positive
      have scanned := Session.next_of_longest_eq_some more searched preferred log
      exact ⟨m.length, id, rule, _, munch, known, scanned⟩
    · exact (none ⟨m.length, id, munch.positive, munch.length_le, munch.reads⟩).elim
  · refine ⟨fun finished => Session.next_of_rest_eq_nil finished log, ?_, fun c cs rest _ => ?_⟩
    · rintro ⟨k, j, positive, le, read⟩
      exact (unmatched k positive le ((assembled.accepts_iff _).2 ⟨j, read⟩)).elim
    · exact Session.next_of_longest_eq_none rest searched log

theorem next_munches {x y : Logged σ} (built : l.build x = .ok a y) {source : String}
    {s : Session R κ} (reached : s.Reached a source) (log : Array Event) :
    ∃ done, source.toList = done ++ s.rest ∧ s.position = utf8Length done ∧ l.ScansNext s log := by
  obtain ⟨same, done, text, position⟩ := reached.scans
  exact ⟨done, text, position, (build_assembled built).scansNext same log⟩

theorem next_munches_abba : ∃ (a : Automaton String) (y : Logged Unit),
    (Lexer.mk [⟨"a", "short", id⟩, ⟨"ab", "long", id⟩] true none).build { state := () } = .ok a y ∧
      ∃ done, "abba".toList = done ++ "abba".toList ∧ 0 = utf8Length done ∧
        (Lexer.mk [⟨"a", "short", id⟩, ⟨"ab", "long", id⟩] true none).ScansNext
          (Session.withSource { automaton := a, caller := () } "abba") #[] := by
  obtain ⟨a, y, built⟩ := Build.exists_of_succeeds
    (by cbv : Build.succeeds ((Lexer.mk [⟨"a", "short", id⟩, ⟨"ab", "long", id⟩] true none).build
      { state := () } : EStateM.Result Failure (Logged Unit) (Automaton String)) = true)
  exact ⟨a, y, built, next_munches built (.start rfl) #[]⟩

end Lexer

end LongestMatch
