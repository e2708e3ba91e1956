import LongestMatch.Proofs.Fragment.Accept

namespace LongestMatch

open Graph Build

structure Branch where
  fragment : Fragment
  nodes : Set NodeId
  language : Language Nat

structure Graph.Branches (g : Graph) (start : NodeId) (branches : List Branch) : Prop where
  inside : g.HasNode start
  steps : ∀ label q,
    q ∈ g.targets start label ↔ label = none ∧ ∃ b ∈ branches, q = b.fragment.entry
  bare : (g.nodeD start).handlers = []
  answers : ∀ (id : Nat) b, branches[id]? = some b →
    b.fragment.Answers g b.nodes b.language id ∧ start ∉ b.nodes

variable {g h : Graph} {start : NodeId} {branches : List Branch}

namespace Graph.Branches

theorem single_node : ((∅ : Graph).push {}).Branches 0 [] where
  inside := Nat.zero_lt_one
  steps label q := by
    rw [targets, nodeD_push_empty, ← targets, targets_of_size_le (Nat.le_refl 0)]
    simp
  bare := rfl
  answers id b found := by simp at found

theorem exists_answers (all : g.Branches start branches) {b : Branch} (member : b ∈ branches) :
    ∃ id, b.fragment.Answers g b.nodes b.language id ∧ start ∉ b.nodes := by
  obtain ⟨id, found⟩ := List.getElem?_of_mem member
  exact ⟨id, all.answers id b found⟩

theorem region (all : g.Branches start branches) :
    g.Region {n | n = start ∨ ∃ b ∈ branches, n ∈ b.nodes} where
  closed := by
    rintro p (rfl | ⟨b, member, owned⟩) label q next
    · obtain ⟨_, b, member, rfl⟩ := (all.steps label q).1 next
      obtain ⟨id, answers, _⟩ := all.exists_answers member
      exact .inr ⟨b, member, answers.lives.entry⟩
    · obtain ⟨id, answers, _⟩ := all.exists_answers member
      exact .inr ⟨b, member, answers.lives.closed p owned label q next⟩
  inside := by
    rintro n (rfl | ⟨b, member, owned⟩)
    · exact all.inside
    · obtain ⟨id, answers, _⟩ := all.exists_answers member
      exact answers.inside n owned

theorem handles_iff (all : g.Branches start branches) (word : List Nat) (id : Nat) :
    (∃ q ∈ g.reach {start} word, id ∈ (g.nodeD q).handlers) ↔
      ∃ b, branches[id]? = some b ∧ word ∈ b.language := by
  constructor
  · rintro ⟨q, ⟨p, rfl, path⟩, handles⟩
    rcases reads_iff.1 path with ⟨_, rfl⟩ | ⟨label, next, rest, rfl, step, path⟩
    · rw [all.bare] at handles
      cases handles
    obtain ⟨rfl, b, member, rfl⟩ := (all.steps label next).1 step
    obtain ⟨id', found⟩ := List.getElem?_of_mem member
    obtain ⟨answers, _⟩ := all.answers id' b found
    rw [answers.handlers q (path.mem answers.lives.closed answers.lives.entry)] at handles
    split at handles
    · rename_i exit
      subst exit
      obtain rfl := List.mem_singleton.1 handles
      refine ⟨b, found, ?_⟩
      rw [← answers.language]
      exact path
    · cases handles
  · rintro ⟨b, found, member⟩
    obtain ⟨answers, _⟩ := all.answers id b found
    rw [← answers.language] at member
    have step := (all.steps none _).2 ⟨rfl, b, List.mem_of_getElem? found, rfl⟩
    refine ⟨b.fragment.exit, ⟨start, rfl, .silent step member⟩, ?_⟩
    rw [answers.handlers _ answers.lives.exit, if_pos rfl]
    exact List.mem_singleton_self id

theorem add (all : g.Branches start branches) {f : Fragment} {L : Language Nat}
    (owns : f.Owns h (Set.Ico g.size h.size) L) (grown : g.Grows (Set.Ico g.size g.size) h) :
    ∃ h₁ h₂, Yields (f.accept branches.length) h () h₁ ∧
      Yields (addEdge start (.epsilon [f.entry])) h₁ () h₂ ∧
        h₂.Branches start (branches ++ [⟨f, Set.Ico g.size h.size, L⟩]) := by
  obtain ⟨h₁, accept, answers, changed, size⟩ := owns.accept branches.length
  have old : start ∉ Set.Ico g.size h.size := fun member => Nat.not_lt.2 member.1 all.inside
  have inside : h₁.HasNode start :=
    Nat.lt_of_lt_of_le all.inside (Nat.le_trans grown.size_le changed.size_le)
  have kept : h₁.nodeD start = g.nodeD start := by
    rw [changed.kept start (Nat.lt_of_lt_of_le all.inside grown.size_le) old,
      grown.kept start all.inside fun member => Nat.not_lt.2 member.1 member.2]
  have joined : h₁.Grows {start} (h₁.modify start (·.addEdge (.epsilon [f.entry]))) :=
    ⟨Nat.le_of_eq (size_modify ..).symm, fun n _ other => nodeD_modify_of_ne _ other⟩
  refine ⟨h₁, _, accept, yields_addEdge inside _, ?_, fun label q => ?_, ?_, fun id b found => ?_⟩
  · rw [HasNode, size_modify]
    exact inside
  · rw [mem_targets_addEdge inside, targets, kept, ← targets, all.steps label q]
    cases label with
    | none => simp [Edge.passes, Edge.targets, or_and_right, exists_or]
    | some code => simp [Edge.passes]
  · rw [nodeD_modify_self _ inside]
    show (h₁.nodeD start).handlers = []
    rw [kept, all.bare]
  · rcases Nat.lt_or_ge id branches.length with before | beyond
    · rw [List.getElem?_append_left before] at found
      obtain ⟨there, outside⟩ := all.answers id b found
      refine ⟨((there.of_grows grown ?_).of_grows changed ?_).of_grows joined ?_, outside⟩
      · rw [Set.Ico_self]
        exact Set.disjoint_empty _
      · exact Set.disjoint_left.2 fun n member new => Nat.not_lt.2 new.1 (there.inside n member)
      · exact Set.disjoint_singleton_right.2 outside
    · rw [List.getElem?_append_right beyond, List.getElem?_singleton] at found
      split at found
      · rename_i here
        cases found
        obtain rfl : id = branches.length := by omega
        exact ⟨answers.of_grows joined (Set.disjoint_singleton_right.2 old), old⟩
      · cases found

end Graph.Branches

end LongestMatch
