import LongestMatch.Proofs.Determinize.Walks
import LongestMatch.Proofs.Fragment.Ownership

namespace LongestMatch

open Graph Build

namespace Fragment

structure Answers (f : Fragment) (g : Graph) (nodes : Set NodeId) (L : Language Nat) (id : HandlerId) :
    Prop where
  lives : f.LivesIn g nodes
  inside : ∀ n ∈ nodes, n < g.size
  handlers : ∀ n ∈ nodes, (g.nodeD n).handlers = if n = f.exit then [id] else []
  language : f.language g = L

variable {g h : Graph} {f : Fragment} {A B : Set NodeId} {L : Language Nat} {id : HandlerId}

theorem Answers.of_grows (answers : f.Answers g A L id) (grown : g.Grows B h) (apart : Disjoint A B) :
    f.Answers h A L id := by
  have same := grown.kept_of_disjoint answers.inside apart
  obtain ⟨lives, language⟩ := answers.lives.of_targets (h := h) fun n member label => by
    rw [Graph.targets, Graph.targets, same n member]
  refine ⟨lives, fun n member => ?_, fun n member => ?_, language.trans answers.language⟩
  · exact Nat.lt_of_lt_of_le (answers.inside n member) grown.size_le
  · rw [same n member, answers.handlers n member]

theorem Owns.accept (owns : f.Owns g A L) (id : HandlerId) :
    ∃ h, Yields (f.accept id) g () h ∧ f.Answers h A L id ∧ g.Grows A h ∧ h.size = g.size := by
  have exit := owns.exit_lt
  refine ⟨_, yields_addHandler exit id, ?_, ⟨Nat.le_of_eq (size_modify ..).symm, fun n _ outside => ?_⟩,
    size_modify ..⟩
  · obtain ⟨lives, language⟩ := owns.lives.of_targets (h := g.modify f.exit (·.addHandler id))
      fun n member label => by
        by_cases same : n = f.exit
        · rw [Graph.targets, same, nodeD_modify_self _ exit]
          rfl
        · rw [Graph.targets, nodeD_modify_of_ne _ same]
          rfl
    refine ⟨lives, fun n member => ?_, fun n member => ?_, language.trans owns.language⟩
    · rw [size_modify]
      exact owns.inside n member
    · split
      · rename_i same
        rw [same, nodeD_modify_self _ exit, Node.addHandler, owns.bare _ owns.lives.exit]
        rfl
      · rename_i other
        rw [nodeD_modify_of_ne _ other, owns.bare n member]
  · rw [nodeD_modify_of_ne]
    rintro rfl
    exact outside owns.lives.exit

theorem Answers.region (answers : f.Answers g A L id) : g.Region A :=
  ⟨answers.lives.closed, answers.inside⟩

theorem Answers.determinize (answers : f.Answers g A L id) :
    ∃ states first, g.determinize f.entry none = .ok (states, first) ∧ states.Single ∧
      states.HasNode first ∧ ∀ word, states.Accepts first word ↔ word ∈ L := by
  rcases determinize_determined answers.region answers.lives.entry none with
    ⟨_, none, _⟩ | ⟨states, first, result, determined⟩
  · cases none
  refine ⟨states, first, result, determined.single, determined.inside, fun word => ?_⟩
  rw [determined.accepts, ← answers.language]
  constructor
  · rintro ⟨q, ⟨p, rfl, path⟩, some⟩
    have member := path.mem answers.lives.closed answers.lives.entry
    rw [answers.handlers q member] at some
    split at some
    · rename_i same
      rw [same] at path
      exact path
    · exact (some rfl).elim
  · intro member
    refine ⟨f.exit, ⟨f.entry, rfl, member⟩, ?_⟩
    rw [answers.handlers _ answers.lives.exit, if_pos rfl]
    exact List.cons_ne_nil _ _

end Fragment

end LongestMatch
