import Mathlib.Order.Interval.Set.Disjoint
import LongestMatch.Proofs.Fragment.Combine

namespace LongestMatch

open Graph Build
open scoped Computability

structure Graph.Grows (g : Graph) (nodes : Set NodeId) (h : Graph) : Prop where
  size_le : g.size ≤ h.size
  kept : ∀ n < g.size, n ∉ nodes → h.nodeD n = g.nodeD n

namespace Fragment

/-- The fragment reads `L`, and it lives in nodes of its own, which accept for no handler. -/
structure Owns (f : Fragment) (g : Graph) (nodes : Set NodeId) (L : Language Nat) : Prop where
  lives : f.LivesIn g nodes
  inside : ∀ n ∈ nodes, n < g.size
  bare : ∀ n ∈ nodes, (g.nodeD n).handlers = []
  language : f.language g = L

end Fragment

/-- From the graph `g` the computation makes a fragment that reads `L` and owns the given nodes and
all new ones. -/
def Build.Makes (work : Build Fragment) (g : Graph) (nodes : Set NodeId) (L : Language Nat) : Prop :=
  ∃ f h, Yields work g f h ∧ f.Owns h (nodes ∪ Set.Ico g.size h.size) L ∧ g.Grows nodes h

namespace Graph

variable {g h k : Graph} {A B : Set NodeId}

theorem Grows.refl (g : Graph) (nodes : Set NodeId) : g.Grows nodes g :=
  ⟨Nat.le_refl _, fun _ _ _ => rfl⟩

theorem Grows.trans (first : g.Grows A h) (second : h.Grows B k)
    (owned : ∀ n < g.size, n ∈ B → n ∈ A) : g.Grows A k where
  size_le := Nat.le_trans first.size_le second.size_le
  kept n old outside := by
    rw [second.kept n (Nat.lt_of_lt_of_le old first.size_le) fun member =>
      outside (owned n old member), first.kept n old outside]

theorem Grows.mono (grown : g.Grows A h) (subset : A ⊆ B) : g.Grows B h :=
  ⟨grown.size_le, fun n old outside => grown.kept n old fun member => outside (subset member)⟩

theorem Grows.kept_of_disjoint (grown : g.Grows B h) (inside : ∀ n ∈ A, n < g.size)
    (apart : Disjoint A B) : ∀ n ∈ A, h.nodeD n = g.nodeD n := fun n member =>
  grown.kept n (inside n member) (Set.disjoint_left.1 apart member)

theorem Extends.grows {joins : NodeId → NodeId → Prop} (extended : g.Extends A joins h) :
    g.Grows A h := ⟨extended.size_le, extended.kept⟩

end Graph

namespace Fragment

variable {g h : Graph} {f next other : Fragment} {A B : Set NodeId} {L M : Language Nat}
  {joins : NodeId → NodeId → Prop}

theorem RunsIn.of_targets (runs : f.RunsIn g A)
    (same : ∀ n ∈ A, ∀ label, h.targets n label = g.targets n label) :
    f.RunsIn h A ∧ f.language h = f.language g := by
  refine ⟨⟨fun n member label q next => ?_, runs.entry⟩, ?_⟩
  · rw [same n member label] at next
    exact runs.closed n member label q next
  · ext word
    exact reads_congr runs.closed (fun n member label q => by rw [same n member label]) runs.entry

theorem LivesIn.of_targets (lives : f.LivesIn g A)
    (same : ∀ n ∈ A, ∀ label, h.targets n label = g.targets n label) :
    f.LivesIn h A ∧ f.language h = f.language g := by
  obtain ⟨runs, language⟩ := lives.runs.of_targets same
  exact ⟨⟨runs.closed, runs.entry, lives.exit⟩, language⟩

theorem Owns.of_grows (owns : f.Owns g A L) (grown : g.Grows B h) (apart : Disjoint A B) :
    f.Owns h A L := by
  have same := grown.kept_of_disjoint owns.inside apart
  obtain ⟨lives, language⟩ := owns.lives.of_targets (h := h) fun n member label => by
    rw [Graph.targets, Graph.targets, same n member]
  refine ⟨lives, fun n member => ?_, fun n member => ?_, language.trans owns.language⟩
  · exact Nat.lt_of_lt_of_le (owns.inside n member) grown.size_le
  · rw [same n member, owns.bare n member]

theorem Owns.exit_lt (owns : f.Owns g A L) : g.HasNode f.exit :=
  owns.inside _ owns.lives.exit

theorem closed_join (closedA : g.Closed A) (closedB : g.Closed B) (joined : g.JoinsBy joins h)
    (inside : ∀ x y, joins x y → y ∈ A ∪ B ∪ Set.Ico g.size h.size) :
    h.Closed (A ∪ B ∪ Set.Ico g.size h.size) := by
  intro p member label q next
  rcases (joined p label q).1 next with old | ⟨_, join⟩
  · rcases member with (member | member) | member
    · exact .inl (.inl (closedA p member label q old))
    · exact .inl (.inr (closedB p member label q old))
    · rw [targets_of_size_le member.1] at old
      cases old
  · exact inside p q join

theorem owns_join (both : Fragment) (first : f.Owns g A L) (second : next.Owns g B M)
    (extended : g.Extends (A ∪ B) joins h) {N : Language Nat}
    (inside : ∀ x y, joins x y → y ∈ A ∪ B ∪ Set.Ico g.size h.size)
    (entry : both.entry ∈ A ∪ B ∪ Set.Ico g.size h.size)
    (exit : both.exit ∈ A ∪ B ∪ Set.Ico g.size h.size) (language : both.language h = N) :
    both.Owns h (A ∪ B ∪ Set.Ico g.size h.size) N where
  lives := ⟨closed_join first.lives.closed second.lives.closed extended.steps inside, entry, exit⟩
  inside n member := by
    rcases member with (member | member) | member
    · exact Nat.lt_of_lt_of_le (first.inside n member) extended.size_le
    · exact Nat.lt_of_lt_of_le (second.inside n member) extended.size_le
    · exact member.2
  bare n member := by
    rw [extended.handlers n]
    rcases member with (member | member) | member
    · exact first.bare n member
    · exact second.bare n member
    · rw [nodeD_of_size_le member.1]
  language := language

theorem makes_concatenate (first : f.Owns g A L) (second : next.Owns g B M)
    (apart : Disjoint A B) : (f.concatenate next).Makes g (A ∪ B) (L * M) := by
  obtain ⟨h, yields, extended⟩ := extends_concatenate first.exit_lt next
  refine ⟨⟨f.entry, next.exit⟩, h, yields,
    owns_join _ first second (extended.mono ?_) ?_ (.inl (.inl first.lives.entry))
      (.inl (.inr second.lives.exit)) ?_, (extended.mono ?_).grows⟩
  · exact Set.singleton_subset_iff.2 (.inl first.lives.exit)
  · rintro x y ⟨_, rfl⟩
    exact .inl (.inr second.lives.entry)
  · rw [← first.language, ← second.language]
    refine language_concatenate first.lives.runs second.lives.runs ?_ extended.steps
    rwa [first.lives.insert_exit, second.lives.insert_exit]
  · exact Set.singleton_subset_iff.2 (.inl first.lives.exit)

theorem makes_union (first : f.Owns g A L) (second : other.Owns g B M) (apart : Disjoint A B) :
    (f.union other).Makes g (A ∪ B) (L + M) := by
  obtain ⟨h, yields, size, extended⟩ := extends_union first.exit_lt second.exit_lt
  have exits : {f.exit, other.exit} ⊆ A ∪ B :=
    Set.pair_subset (.inl first.lives.exit) (.inr second.lives.exit)
  have start_new : g.size ∈ Set.Ico g.size h.size := ⟨Nat.le_refl _, by omega⟩
  have stop_new : g.size + 1 ∈ Set.Ico g.size h.size := ⟨Nat.le_succ _, by omega⟩
  refine ⟨⟨g.size, g.size + 1⟩, h, yields,
    owns_join _ first second (extended.mono exits) ?_ (.inr start_new) (.inr stop_new) ?_,
    (extended.mono exits).grows⟩
  · rintro x y (⟨_, rfl | rfl⟩ | ⟨_, rfl⟩)
    · exact .inl (.inl first.lives.entry)
    · exact .inl (.inr second.lives.entry)
    · exact .inr stop_new
  · rw [← first.language, ← second.language]
    refine language_union_new first.lives.runs second.lives.runs ?_ ?_ ?_ extended.steps
    · rwa [first.lives.insert_exit, second.lives.insert_exit]
    · rw [first.lives.insert_exit]
      exact first.inside
    · rw [second.lives.insert_exit]
      exact second.inside

theorem makes_star (owns : f.Owns g A L) : f.star.Makes g A L∗ := by
  obtain ⟨h, yields, size, extended⟩ := extends_star owns.exit_lt
  have exit : {f.exit} ⊆ A ∪ A := Set.singleton_subset_iff.2 (.inl owns.lives.exit)
  have start_new : g.size ∈ Set.Ico g.size h.size := ⟨Nat.le_refl _, by omega⟩
  have stop_new : g.size + 1 ∈ Set.Ico g.size h.size := ⟨Nat.le_succ _, by omega⟩
  have owned := owns_join ⟨g.size, g.size + 1⟩ (N := L∗) owns owns (extended.mono exit) ?_
    (.inr start_new) (.inr stop_new) ?_
  · rw [Set.union_self] at owned exit
    exact ⟨_, h, yields, owned, (extended.mono exit).grows⟩
  · rintro x y ⟨_, rfl | rfl⟩
    · exact .inl (.inl owns.lives.entry)
    · exact .inr stop_new
  · rw [← owns.language]
    exact language_star_new owns.lives.runs owns.inside extended.steps

end Fragment

def Build.MakesFrom (work : Build Fragment) (g : Graph) (lo : Nat) (L : Language Nat) : Prop :=
  ∃ f h, Yields work g f h ∧ f.Owns h (Set.Ico lo h.size) L ∧ g.Grows (Set.Ico lo g.size) h

theorem Build.Makes.interval {work : Build Fragment} {g : Graph} {lo : Nat} {L : Language Nat}
    (le : lo ≤ g.size) (makes : work.Makes g (Set.Ico lo g.size) L) : work.MakesFrom g lo L := by
  obtain ⟨f, h, yields, owns, grown⟩ := makes
  rw [Set.Ico_union_Ico_eq_Ico le grown.size_le] at owns
  exact ⟨f, h, yields, owns, grown⟩

theorem Build.Makes.new {work : Build Fragment} {g : Graph} {L : Language Nat}
    (makes : work.Makes g ∅ L) : work.MakesFrom g g.size L :=
  Makes.interval (Nat.le_refl _) (by rwa [Set.Ico_self])

end LongestMatch
