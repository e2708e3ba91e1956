import LongestMatch.Proofs.Fragment.Classes

namespace LongestMatch

open Graph Build CodeRange

namespace Edge

theorem first_le_last (e : Edge) : e.first ≤ e.last := by
  cases e with
  | arc a => exact a.range.first_le_last
  | epsilon targets => exact Nat.le_refl _
  | never => exact Nat.le_refl _

theorem foldl_unite_of_forall {edges : List Edge} {q : NodeId}
    (only : ∀ e ∈ edges, e.targets = [q]) :
    edges.foldl (fun targets e => NodeId.unite targets e.targets) [q] = [q] := by
  induction edges with
  | nil => rfl
  | cons e edges ih =>
      obtain ⟨here, later⟩ := List.forall_mem_cons.1 only
      have same : NodeId.unite [q] [q] = [q] := by simp [NodeId.unite]
      rw [List.foldl_cons, here, same, ih later]

theorem united_of_forall {edges : List Edge} {q : NodeId} (some : edges ≠ [])
    (only : ∀ e ∈ edges, e.targets = [q]) : united edges = .some [q] := by
  cases edges with
  | nil => exact absurd rfl some
  | cons e edges =>
      obtain ⟨first, others⟩ := List.forall_mem_cons.1 only
      rw [united, first, foldl_unite_of_forall others]

end Edge

namespace Node

theorem targets_of_mem_foldl_addEdge (n : Node) {edges : List Edge} {q : NodeId}
    (only : ∀ e ∈ edges, e.targets = [q]) {e : Edge}
    (member : e ∈ (edges.foldl addEdge n.withoutEdges).edges) : e.targets = [q] := by
  have found := edgeFor?_of_mem_edges member (Edge.contains_iff.2 ⟨Nat.le_refl _, e.first_le_last⟩)
  have passable : e.first ≠ neverCode := by
    intro never
    rw [never, edgeFor?_never] at found
    cases found
  have all := targetsFor_foldl_addEdge n edges passable
  rw [targetsFor, found, Option.map_some] at all
  have covered : Edge.covering edges e.first ≠ [] := fun none => by
    cases all.trans (Edge.united_eq_none.2 none)
  rw [Edge.united_of_forall covered fun e member => only e (List.mem_filter.1 member).1] at all
  exact Option.some.inj all

theorem isEpsilon_of_mem_foldl_addEdge (n : Node) {edges : List Edge}
    (reading : ∀ e ∈ edges, e.isEpsilon = false) {e : Edge}
    (member : e ∈ (edges.foldl addEdge n.withoutEdges).edges) : e.isEpsilon = false := by
  rw [Node.edges, List.mem_append, List.mem_map, Option.mem_toList] at member
  rcases member with ⟨a, _, rfl⟩ | found
  · rfl
  · obtain ⟨targets, there, _⟩ := Option.map_eq_some_iff.1 found
    have all := targetsFor_foldl_addEdge n edges (show epsilonCode ≠ neverCode by decide)
    rw [targetsFor_epsilon, there] at all
    have covered : Edge.covering edges epsilonCode ≠ [] := fun none => by
      cases all.trans (Edge.united_eq_none.2 none)
    obtain ⟨e', member', silent⟩ := Edge.covering_ne_nil.1 covered
    rw [Edge.contains_epsilonCode, reading e' member'] at silent
    cases silent

end Node

namespace Fragment

def across (f : Fragment) (r : CodeRange) : Edge := .arc ⟨r, [f.exit]⟩

theorem nodeD_withArcs_entry {f : Fragment} {g : Graph} (inside : f.entry < g.size)
    (rs : List CodeRange) : (f.withArcs g rs).nodeD f.entry =
      (rs.map f.across).foldl Node.addEdge (g.nodeD f.entry) := by
  induction rs generalizing g with
  | nil => rfl
  | cons r rs ih =>
      rw [withArcs, List.foldl_cons, ← withArcs, ih (by rwa [size_modify]),
        nodeD_modify_self _ inside]
      rfl

theorem covering_across (f : Fragment) (rs : List CodeRange) (code : Nat) :
    Edge.covering (rs.map f.across) code ≠ [] ↔ Covers rs code := by
  simp [Edge.covering_ne_nil, across, Covers]

/-- The fragment consists of two new nodes. Its entry has an edge for exactly the code points of a set,
each of which leads to the exit alone, and its exit has none. -/
structure Denotes (g : Graph) (f : Fragment) (h : Graph) (has : Nat → Prop) : Prop where
  entry : f.entry = g.size
  exit : f.exit = g.size + 1
  size : h.size = g.size + 2
  kept : ∀ n < g.size, h.nodeD n = g.nodeD n
  edge : ∀ code ≤ maxCode, (∃ e, (h.nodeD f.entry).edgeFor? code = some e) ↔ has code
  onward : ∀ e ∈ (h.nodeD f.entry).edges, ∃ r, e = f.across r
  final : (h.nodeD f.exit).edges = []
  language : f.language h = single fun code => code ≤ maxCode ∧ has code

variable {g h : Graph} {f : Fragment} {has has' : Nat → Prop}

theorem Denotes.congr (denotes : f.Denotes g h has)
    (same : ∀ code ≤ maxCode, (has code ↔ has' code)) : f.Denotes g h has' :=
  { denotes with
    edge := fun code le => (denotes.edge code le).trans (same code le)
    language := denotes.language.trans (single_congr fun code => and_congr_right (same code)) }

theorem Denotes.edges_eq_nil (denotes : f.Denotes g h has) (none : ∀ code ≤ maxCode, ¬ has code) :
    (h.nodeD f.entry).edges = [] := by
  refine List.eq_nil_iff_forall_not_mem.2 fun e member => ?_
  obtain ⟨r, rfl⟩ := denotes.onward e member
  have le : r.first ≤ maxCode := Nat.le_trans r.first_le_last r.last_le
  have found := Node.edgeFor?_of_mem_edges member
    (Edge.contains_iff.2 ⟨Nat.le_refl _, (f.across r).first_le_last⟩)
  exact none _ le ((denotes.edge _ le).1 ⟨_, found⟩)

theorem Denotes.language_eq_zero (denotes : f.Denotes g h has)
    (none : ∀ code ≤ maxCode, ¬ has code) : f.language h = 0 := by
  rw [denotes.language]
  refine Set.eq_empty_iff_forall_notMem.2 ?_
  rintro _ ⟨code, ⟨le, inside⟩, rfl⟩
  exact none code le inside

theorem denotes_withArcs (g : Graph) (rs : List CodeRange) :
    Denotes g ⟨g.size, g.size + 1⟩ (withArcs ⟨g.size, g.size + 1⟩ ((g.push {}).push {}) rs)
      (Covers rs) := by
  have inside := size_lt_fresh g
  have entry := nodeD_withArcs_entry (f := ⟨g.size, g.size + 1⟩) inside rs
  have exit : (withArcs ⟨g.size, g.size + 1⟩ ((g.push {}).push {}) rs).nodeD (g.size + 1) = {} := by
    rw [nodeD_withArcs_of_ne rs (Nat.succ_ne_self _), nodeD_fresh (Nat.le_succ _)]
  rw [nodeD_fresh (Nat.le_refl _)] at entry
  have partitions := Node.partitions_foldl_addEdge {} (rs.map (across ⟨g.size, g.size + 1⟩))
  refine ⟨rfl, rfl, by simp, fun n old => (grows_withArcs g rs).kept n old (Set.notMem_empty n),
    ?_, ?_, ?_, ?_⟩
  · intro code le
    rw [entry, ← Option.ne_none_iff_exists', ← covering_across ⟨g.size, g.size + 1⟩]
    have passable : code ≠ neverCode := Nat.ne_of_lt (Nat.lt_of_le_of_lt le (by decide))
    exact not_congr (partitions.absent code passable)
  · intro e member
    rw [entry] at member
    have reading := Node.isEpsilon_of_mem_foldl_addEdge {} (by simp [across, Edge.isEpsilon]) member
    have only : e.targets = [g.size + 1] :=
      Node.targets_of_mem_foldl_addEdge {} (by simp [across, Edge.targets]) member
    cases e with
    | arc a => exact ⟨a.range, by rw [across, ← only]; rfl⟩
    | epsilon targets => cases reading
    | never => cases only
  · rw [exit]
    rfl
  · rw [(owns_withArcs g rs).language]
    refine single_congr fun code => (and_iff_right_of_imp ?_).symm
    rintro ⟨r, _, inside⟩
    exact Nat.le_trans (contains_iff.1 inside).2 r.last_le

theorem covers_map_bounds (rs : List CodeRange) (code : Nat) :
    Covers rs code ↔ ∃ pair ∈ rs.map bounds, pair.1 ≤ code ∧ code ≤ pair.2 := by
  simp [Covers, contains_iff, bounds]

theorem class_denotes (pairs : List (Nat × Nat)) (g : Graph) (nonempty : pairs ≠ [])
    (valid : ∀ pair ∈ pairs, pair.1 ≤ pair.2 ∧ pair.2 ≤ maxCode) :
    (∃ f h, Yields (ofClass pairs) g f h ∧
      f.Denotes g h fun code => ∃ pair ∈ pairs, pair.1 ≤ code ∧ code ≤ pair.2) ∧
    ∃ f h, Yields (ofNegatedClass pairs) g f h ∧
      f.Denotes g h (fun code => ¬ ∃ pair ∈ pairs, pair.1 ≤ code ∧ code ≤ pair.2) ∧
      ((∀ code ≤ maxCode, ∃ pair ∈ pairs, pair.1 ≤ code ∧ code ≤ pair.2) →
        (h.nodeD f.entry).edges = [] ∧ f.language h = 0) := by
  obtain ⟨rs, rfl⟩ := exists_bounds pairs valid
  have some : rs ≠ [] := fun none => nonempty (by rw [none, List.map_nil])
  refine ⟨⟨_, _, yields_ofClass some g, ?_⟩, _, _, yields_ofNegatedClass some g, ?_⟩
  · exact (denotes_withArcs g rs).congr fun code _ => covers_map_bounds rs code
  · have denotes := (denotes_withArcs g (outside rs)).congr fun code le =>
      (covers_outside rs code).trans ((and_iff_right le).trans (not_congr (covers_map_bounds rs code)))
    refine ⟨denotes, fun all => ?_⟩
    have none : ∀ code ≤ maxCode, ¬ ¬ ∃ pair ∈ rs.map bounds, pair.1 ≤ code ∧ code ≤ pair.2 :=
      fun code le => not_not.2 (all code le)
    exact ⟨denotes.edges_eq_nil none, denotes.language_eq_zero none⟩

theorem class_denotes_overlapping :
    ([(5, 9), (0, 6), (10, 10)] : List (Nat × Nat)) ≠ [] ∧
    (∀ pair ∈ [(5, 9), (0, 6), (10, 10)], pair.1 ≤ pair.2 ∧ pair.2 ≤ maxCode) ∧
    ∃ f h, Yields (ofNegatedClass [(5, 9), (0, 6), (10, 10)]) ∅ f h ∧
      [11] ∈ f.language h ∧ [10] ∉ f.language h ∧ [0] ∉ f.language h := by
  have valid : ∀ pair ∈ [(5, 9), (0, 6), (10, 10)], pair.1 ≤ pair.2 ∧ pair.2 ≤ maxCode := by decide
  refine ⟨by decide, valid, ?_⟩
  obtain ⟨_, f, h, yields, denotes, _⟩ := class_denotes _ ∅ (by decide) valid
  refine ⟨f, h, yields, ?_, ?_, ?_⟩ <;> rw [denotes.language]
  · exact ⟨11, ⟨by decide, by decide⟩, rfl⟩
  · rintro ⟨code, ⟨_, outside⟩, ⟨⟩⟩
    exact outside (by decide)
  · rintro ⟨code, ⟨_, outside⟩, ⟨⟩⟩
    exact outside (by decide)

end Fragment

end LongestMatch
