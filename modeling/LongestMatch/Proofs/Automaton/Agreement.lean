import LongestMatch.Proofs.Automaton.Safety

namespace LongestMatch

variable {R κ : Type}

namespace Automaton

variable {a : Automaton R} {text p : List Char} {m : Match}

structure Munch (a : Automaton R) (text p : List Char) : Prop where
  ne_nil : p ≠ []
  beginning : p <+: text
  matching : a.matches? (String.ofList p) = .ok true
  longest : ∀ q, q <+: text → p.length < q.length → a.matches? (String.ofList q) = .ok false

def Prefers (a : Automaton R) (p : List Char) (tag : String) (handler : String → R) : Prop :=
  ∃ n node h more, a.graph.walk a.start (codes p) = some n ∧ a.node n = .ok node ∧
    node.handlers = h :: more ∧ a.handlers.entry? h = some (tag, handler)

theorem Single.matches?_ofList (single : a.Single) (p : List Char) :
    ∃ yes, a.matches? (String.ofList p) = .ok yes ∧ (yes = true ↔ a.graph.Accepts a.start (codes p)) := by
  rw [matches?, String.toList_ofList]
  exact single.matchesFrom_eq single.start p

theorem Single.matches?_eq_false (single : a.Single) (rejected : ¬ a.graph.Accepts a.start (codes p)) :
    a.matches? (String.ofList p) = .ok false := by
  obtain ⟨yes, result, iff⟩ := single.matches?_ofList p
  rw [result, Bool.eq_false_iff.2 fun accepted => rejected (iff.1 accepted)]

theorem Unmatched.matches?_eq_false (unmatched : a.Unmatched a.start text) (single : a.Single)
    (beginning : p <+: text) (more : p ≠ []) : a.matches? (String.ofList p) = .ok false := by
  have rejected := unmatched p.length (List.length_pos_iff.2 more) beginning.length_le
  rw [← List.prefix_iff_eq_take.1 beginning] at rejected
  exact single.matches?_eq_false rejected

theorem Longest.munch (longest : a.Longest a.start text m) (single : a.Single) :
    a.Munch text (text.take m.length) where
  ne_nil := List.ne_nil_of_length_pos (by
    rw [List.length_take_of_le longest.length_le]
    exact longest.positive)
  beginning := List.take_prefix _ _
  matching := by
    obtain ⟨yes, result, iff⟩ := single.matches?_ofList (text.take m.length)
    rw [result, iff.2 ⟨_, longest.walk, longest.accepting⟩]
  longest q beginning longer := by
    rw [List.length_take_of_le longest.length_le] at longer
    have rejected := longest.longest q.length longer beginning.length_le
    rw [← List.prefix_iff_eq_take.1 beginning] at rejected
    exact single.matches?_eq_false rejected

theorem Longest.prefers {h : HandlerId} {more : List HandlerId} {entry : String × (String → R)}
    (longest : a.Longest a.start text m) (single : a.Single)
    (handlers : (a.graph.nodeD m.node).handlers = h :: more)
    (known : a.handlers.entry? h = some entry) :
    a.Prefers (text.take m.length) entry.1 entry.2 :=
  ⟨m.node, _, h, more, longest.walk, node_eq (single.walk_lt single.start longest.walk), handlers, known⟩

end Automaton

namespace Session

variable {s : Session R κ}

inductive Agrees (s : Session R κ) (log : Array Event) : Prop
  | token {p : List Char} {tag : String} {handler : String → R} {t : Session R κ}
      (munch : s.automaton.Munch s.rest p) (prefers : s.automaton.Prefers p tag handler)
      (moved : t = { s with rest := s.rest.drop p.length, position := s.position + utf8Length p })
      (safe : t.Safe)
      (scanned : next ⟨s, log⟩ = .ok (.token (handler (String.ofList p)))
        ⟨t, log.push (.matched (String.ofList p) s.position tag)⟩)
  | unrecognized {c : Char} {cs : List Char} (rest : s.rest = c :: cs)
      (unmatched : ∀ p, p <+: s.rest → p ≠ [] → s.automaton.matches? (String.ofList p) = .ok false)
      (scanned : next ⟨s, log⟩ = .ok (.unrecognized ⟨c, s.position⟩) ⟨s, log⟩)

theorem next_agrees (safe : s.Safe) (more : s.rest ≠ []) (log : Array Event) :
    (∀ text, ∃ yes, s.automaton.matches? text = .ok yes) ∧ s.Agrees log := by
  have single := safe.sound.single
  refine ⟨fun text => ?_, ?_⟩
  · obtain ⟨yes, result, _⟩ := single.matchesFrom_eq single.start text.toList
    exact ⟨yes, result⟩
  · obtain ⟨found, searched, ⟨m, longest, rfl⟩ | ⟨unmatched, rfl⟩⟩ := single.longest_eq s.rest
    · obtain ⟨h, _, entry, handlers, known, preferred⟩ := safe.sound.exists_entry longest
      have scanned := next_of_longest_eq_some more searched preferred log
      refine .token (longest.munch single) (longest.prefers single handlers known) ?_
        (safe.passes (.advance s m.length)) scanned
      rw [List.length_take_of_le longest.length_le]
      rfl
    · obtain ⟨c, cs, rest⟩ := List.exists_cons_of_ne_nil more
      refine .unrecognized rest (fun p => unmatched.matches?_eq_false single)
        (next_of_longest_eq_none rest searched log)

/-- The cursor is behind `δ` here, and the start accepts. `αβ` and `αβγδ` match, and so do texts that go
on in circles; the scan turns back at a character that no automaton can read. -/
def stumble : Session String Unit where
  automaton :=
    { graph := ⟨#[{ arcs := ⟨[⟨⟨945, 945, by decide, by decide⟩, [1]⟩], by decide⟩, handlers := [1] },
        { arcs := ⟨[⟨⟨946, 946, by decide, by decide⟩, [2]⟩], by decide⟩ },
        { arcs := ⟨[⟨⟨947, 947, by decide, by decide⟩, [3]⟩], by decide⟩, handlers := [0, 1] },
        { arcs := ⟨[⟨⟨948, 948, by decide, by decide⟩, [4]⟩], by decide⟩ },
        { arcs := ⟨[⟨⟨945, 945, by decide, by decide⟩, [1]⟩], by decide⟩, handlers := [1] }]⟩
      start := 0
      handlers := ⟨#[("word", id), ("other", String.toUpper)]⟩ }
  source := "δαβγ𐀀"
  rest := "αβγ𐀀".toList
  position := 2
  caller := ()

theorem next_agrees_stumble : stumble.Safe ∧ stumble.rest ≠ [] ∧ stumble.Agrees #[] := by
  have single : stumble.automaton.Single := .of_nodes (by decide) (by simp [stumble, Graph.size])
  have registered : stumble.automaton.Registered := fun n _ =>
    Automaton.exists_entry_of_nodes (by simp [stumble, HandlerTable.entry?]) n
  have safe : stumble.Safe := ⟨⟨single, registered⟩, ['δ'], by decide, by decide⟩
  have more : stumble.rest ≠ [] := by decide
  exact ⟨safe, more, (next_agrees safe more #[]).2⟩

example : (match next ⟨stumble, #[]⟩ with
    | .ok (.token text) y => some (text, y.state.position)
    | _ => none) = some ("αβ", 6) := by decide +kernel

end Session

end LongestMatch
