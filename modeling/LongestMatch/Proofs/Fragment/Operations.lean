import LongestMatch.Proofs.Fragment.Copy

/-!
# Operations on fragments of any graph

Nothing is asked here of the fragments but that they are in the graph and, where there are two, that
they have no node in common. Their exits may lead on, may lie on cycles, may be the entries, and need
not be reached at all. The operations of regular expressions come out all the same.
-/

namespace LongestMatch.Fragment

open Graph Build
open scoped Computability

def region (f : Fragment) (g : Graph) : Set NodeId := {n | ∃ word, g.Reads f.entry word n}

def nodes (f : Fragment) (g : Graph) : Set NodeId := insert f.exit (f.region g)

variable {g h : Graph} {f next other : Fragment} {A : Set NodeId}

theorem runsIn_region (f : Fragment) (g : Graph) : f.RunsIn g (f.region g) where
  closed := by
    rintro p ⟨word, path⟩ label q next
    exact ⟨word ++ (label.toList ++ []), path.trans (.step next (.stay q))⟩
  entry := ⟨[], .stay f.entry⟩

theorem nodes_subset (lives : f.LivesIn g A) : f.nodes g ⊆ A := by
  rintro n (rfl | ⟨word, path⟩)
  · exact lives.exit
  · exact path.mem lives.closed lives.entry

structure Inside (f : Fragment) (g : Graph) : Prop where
  region : ∀ n ∈ f.region g, n < g.size
  exit : g.HasNode f.exit

theorem Inside.nodes (inside : f.Inside g) : ∀ n ∈ f.nodes g, n < g.size := by
  rintro n (rfl | member)
  · exact inside.exit
  · exact inside.region n member

theorem inside_of_edges (edges : ∀ n < g.size, ∀ e ∈ (g.nodeD n).edges, ∀ q ∈ e.targets,
    g.HasNode q) (entry : g.HasNode f.entry)
    (exit : g.HasNode f.exit) : f.Inside g where
  region := by
    have closed : g.Closed {n | g.HasNode n} := closed_of_edges edges
    rintro n ⟨word, path⟩
    have member := path.mem closed entry
    exact member
  exit := exit

theorem concatenate_language (inside : f.Inside g) (apart : Disjoint (f.nodes g) (next.nodes g)) :
    ∃ k h, Yields (f.concatenate next) g k h ∧
      k.language h = f.language g * next.language g := by
  obtain ⟨h, yields, extended⟩ := extends_concatenate inside.exit next
  exact ⟨_, h, yields,
    language_concatenate (f.runsIn_region g) (next.runsIn_region g) apart extended.steps⟩

theorem union_language (inside : f.Inside g) (inside' : other.Inside g)
    (apart : Disjoint (f.nodes g) (other.nodes g)) :
    ∃ k h, Yields (f.union other) g k h ∧ k.language h = f.language g + other.language g := by
  obtain ⟨h, yields, _, extended⟩ := extends_union inside.exit inside'.exit
  exact ⟨_, h, yields, language_union_new (f.runsIn_region g) (other.runsIn_region g) apart
    inside.nodes inside'.nodes extended.steps⟩

theorem star_language (inside : f.Inside g) :
    ∃ k h, Yields f.star g k h ∧ k.language h = (f.language g)∗ := by
  obtain ⟨h, yields, _, extended⟩ := extends_star inside.exit
  exact ⟨_, h, yields, language_star_new (f.runsIn_region g) inside.region extended.steps⟩

theorem livesIn_loop (runs : f.RunsIn g A) (joined : g.JoinsBy (fun x y =>
      (x = g.size ∨ x = f.exit) ∧ (y = f.entry ∨ y = g.size + 1)) h) :
    (Fragment.mk g.size (g.size + 1)).LivesIn h (A ∪ {g.size, g.size + 1}) where
  closed := by
    intro p member label q next
    rcases (joined p label q).1 next with old | ⟨_, _, rfl | rfl⟩
    · rcases member with member | new
      · exact .inl (runs.closed p member label q old)
      · have beyond : g.size ≤ (p : Nat) := by
          rcases new with rfl | rfl
          · exact Nat.le_refl _
          · exact Nat.le_succ _
        rw [targets_of_size_le beyond] at old
        cases old
    · exact .inl runs.entry
    · exact .inr (.inr rfl)
  entry := .inr (.inl rfl)
  exit := .inr (.inr rfl)

theorem plus_language (inside : f.Inside g) :
    ∃ k h, Yields f.plus g k h ∧ k.language h = f.language g * (f.language g)∗ := by
  have runs := f.runsIn_region g
  -- The copy is made of new nodes, so the fragment stays what it is.
  obtain ⟨once, h₁, copied, livesOnce, languageOnce, grown, _⟩ :=
    exists_copy runs.closed inside.region runs.entry
  obtain ⟨runs₁, language₁⟩ := runs.of_targets (h := h₁) fun n member label => by
    rw [Graph.targets, Graph.targets, grown.kept n (inside.region n member) (Set.notMem_empty n)]
  have inside₁ : ∀ n ∈ f.region g, n < h₁.size := fun n member =>
    Nat.lt_of_lt_of_le (inside.region n member) grown.size_le
  -- To close the loop changes the old exit only, so the copy stays what it is.
  obtain ⟨h₂, looped, size, extended⟩ :=
    extends_star (Nat.lt_of_lt_of_le inside.exit grown.size_le)
  have languageLoop := language_star_new runs₁ inside₁ extended.steps
  have livesLoop := livesIn_loop runs₁ extended.steps
  obtain ⟨livesOnce, languageOnce'⟩ := livesOnce.of_targets (h := h₂) fun n member label => by
    have other : n ∉ ({f.exit} : Set NodeId) := by
      rintro rfl
      exact Nat.not_lt.2 member.1 inside.exit
    rw [Graph.targets, Graph.targets, extended.kept n member.2 other]
  have apart : Disjoint (Set.Ico g.size h₁.size) (f.region g ∪ {h₁.size, h₁.size + 1}) := by
    rw [Set.disjoint_left]
    rintro n new (old | rfl | rfl)
    · exact Nat.not_lt.2 new.1 (inside.region n old)
    · exact Nat.lt_irrefl _ new.2
    · exact Nat.not_lt.2 (Nat.le_succ _) new.2
  rw [← livesOnce.insert_exit, ← livesLoop.insert_exit] at apart
  obtain ⟨h, joined, extended'⟩ := extends_concatenate (f := once) (g := h₂)
    (Nat.lt_of_lt_of_le livesOnce.exit.2 (by omega)) ⟨h₁.size, h₁.size + 1⟩
  refine ⟨_, h, copied.bind (looped.bind joined), ?_⟩
  rw [language_concatenate livesOnce.runs livesLoop.runs apart extended'.steps, languageOnce',
    languageOnce, languageLoop, language₁]

/-- In a graph without dangling edges, the operations on fragments are the operations on languages;
for those on two fragments, these have no node in common. -/
theorem operations_language (edges : ∀ n < g.size, ∀ e ∈ (g.nodeD n).edges, ∀ q ∈ e.targets,
    g.HasNode q) (entry : g.HasNode f.entry)
    (exit : g.HasNode f.exit) :
    (∃ k h, Yields f.star g k h ∧ k.language h = (f.language g)∗) ∧
    (∃ k h, Yields f.plus g k h ∧ k.language h = f.language g * (f.language g)∗) ∧
    ∀ other : Fragment, g.HasNode other.entry → g.HasNode other.exit →
      Disjoint (f.nodes g) (other.nodes g) →
      (∃ k h, Yields (f.concatenate other) g k h ∧
        k.language h = f.language g * other.language g) ∧
      ∃ k h, Yields (f.union other) g k h ∧ k.language h = f.language g + other.language g := by
  have inside := inside_of_edges edges entry exit
  refine ⟨star_language inside, plus_language inside, fun other entry' exit' apart => ?_⟩
  have inside' := inside_of_edges edges entry' exit'
  exact ⟨concatenate_language inside apart, union_language inside inside' apart⟩

/-- Two fragments: the exit of `⟨0, 1⟩` leads back to its entry and lies on a cycle, that of `⟨2, 3⟩`
cannot be reached. -/
def tangle : Graph where
  nodes := #[
    ({} : Node).addEdge (.arc ⟨⟨105, 107, by decide, by decide⟩, [0, 1]⟩),
    (({} : Node).addEdge (.arc ⟨⟨106, 106, by decide, by decide⟩, [0]⟩)).addEdge (.epsilon [1, 0]),
    ((({} : Node).addEdge (.arc ⟨⟨105, 105, by decide, by decide⟩, [2]⟩)).addEdge
      (.epsilon [2])).addHandler 1,
    ({} : Node).addEdge (.arc ⟨⟨106, 108, by decide, by decide⟩, [2]⟩)]

theorem operations_language_tangle :
    (∀ n < tangle.size, ∀ e ∈ (tangle.nodeD n).edges, ∀ q ∈ e.targets,
      tangle.HasNode q) ∧
    Disjoint (Fragment.nodes ⟨0, 1⟩ tangle) (Fragment.nodes ⟨2, 3⟩ tangle) ∧
    (∃ k h, Yields (star ⟨0, 1⟩) tangle k h ∧ k.language h = (language tangle ⟨0, 1⟩)∗) ∧
    (∃ k h, Yields (plus ⟨0, 1⟩) tangle k h ∧
      k.language h = language tangle ⟨0, 1⟩ * (language tangle ⟨0, 1⟩)∗) ∧
    (∃ k h, Yields (concatenate ⟨0, 1⟩ ⟨2, 3⟩) tangle k h ∧
      k.language h = language tangle ⟨0, 1⟩ * language tangle ⟨2, 3⟩) ∧
    ∃ k h, Yields (union ⟨0, 1⟩ ⟨2, 3⟩) tangle k h ∧
      k.language h = language tangle ⟨0, 1⟩ + language tangle ⟨2, 3⟩ := by
  have edges : ∀ n < tangle.size, ∀ e ∈ (tangle.nodeD n).edges, ∀ q ∈ e.targets,
      tangle.HasNode q := by decide
  have lives : (Fragment.mk 0 1).LivesIn tangle {n | n ∈ [0, 1]} :=
    ⟨closed_of_edges (show ∀ n ∈ [0, 1], ∀ e ∈ (tangle.nodeD n).edges, ∀ q ∈ e.targets, q ∈ [0, 1]
      by decide), .head _, .tail _ (.head _)⟩
  have lives' : (Fragment.mk 2 3).LivesIn tangle {n | n ∈ [2, 3]} :=
    ⟨closed_of_edges (show ∀ n ∈ [2, 3], ∀ e ∈ (tangle.nodeD n).edges, ∀ q ∈ e.targets, q ∈ [2, 3]
      by decide), .head _, .tail _ (.head _)⟩
  have apart : Disjoint {n : NodeId | n ∈ [0, 1]} {n | n ∈ [2, 3]} :=
    Set.disjoint_left.2 (show ∀ n ∈ [0, 1], n ∉ [2, 3] by decide)
  have apart := apart.mono (nodes_subset lives) (nodes_subset lives')
  obtain ⟨star, plus, both⟩ := operations_language (f := ⟨0, 1⟩) edges (by decide) (by decide)
  exact ⟨edges, apart, star, plus, both ⟨2, 3⟩ (by decide) (by decide) apart⟩

end LongestMatch.Fragment
