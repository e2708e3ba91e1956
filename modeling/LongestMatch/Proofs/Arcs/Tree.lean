import LongestMatch.Proofs.Arcs.Listed

/-!
# The edges of a node in a tree

The edges of a node can be kept in a red-black tree under the comparator that calls overlapping labels
equal. An edge is then added by recursion: an edge that overlaps it is taken out, and the pieces of the
two are added in the same way. Only pieces that the added edge has to itself can overlap further edges,
and these are shorter than it is (`fits_of_mem_pieces`). So the recursion ends, the tree then lists the
edges of the node (`addEdge_lists`), and it answers all requests as the node does (`answers_empty`).
-/

namespace LongestMatch

/-- The label that has only the given code, or one that no edge of a node has. -/
def Edge.probe (code : Nat) : Edge :=
  if inside : code ≤ maxCode then .arc ⟨⟨code, code, Nat.le_refl code, inside⟩, []⟩
  else if code = epsilonCode then .epsilon []
  else .never

namespace LinkedTree

open Edge

/-- Adds an edge in a recursion less deep than `bound`. An edge that overlaps it is taken out, and the
pieces of the two are added. -/
def addWithin (bound : Nat) (t : LinkedTree Edge) (e : Edge) : Except BrokenTree (LinkedTree Edge) :=
  match bound with
  | 0 => .error .endless
  | bound + 1 =>
    if e.isNever then return t
    else do
      match ← t.remove Edge.compare e with
      | (t, none) => return (← t.insert Edge.compare e).1
      | (t, some there) => (there.separate e).foldlM (addWithin bound) t

def addEdge (t : LinkedTree Edge) (e : Edge) : Except BrokenTree (LinkedTree Edge) :=
  t.addWithin (e.last - e.first + 2) e

def edgeFor? (t : LinkedTree Edge) (code : Nat) : Except BrokenTree (Option Edge) :=
  t.find? Edge.compare (probe code)

variable {t : LinkedTree Edge} {n : Node} {e x : Edge} {before after pieces : List Edge} {bound : Nat}

theorem overlaps_of_locates (locates : Locates Edge.compare e before (some x) after)
    (split : n.edges = before ++ (some x).toList ++ after) :
    n.edges = before ++ x :: after ∧ x ∈ n.edges ∧ extent.Overlaps x e := by
  rw [Option.toList_some, List.append_assoc, List.singleton_append] at split
  exact ⟨split, by simp [split], overlaps_iff.2 (compare_eq_eq_iff.1 (locates.equal x rfl))⟩

theorem between_of_locates (locates : Locates Edge.compare e before none after)
    (split : n.edges = before ++ (none : Option Edge).toList ++ after) :
    n.edges = before ++ after ∧ (∀ y ∈ before, extent.Before y e) ∧ ∀ y ∈ after, extent.Before e y := by
  rw [Option.toList_none, List.append_nil] at split
  have arranged := n.arranged_edges
  rw [split] at arranged
  exact ⟨split, Extent.parts_of_none arranged (extent_wellFormed e) locates⟩

/-- The bound is enough for an edge if its label is free in the node or short. -/
def Fits (bound : Nat) (n : Node) (e : Edge) : Prop :=
  n.Free e ∧ 0 < bound ∨ e.last - e.first + 1 < bound

theorem insert_free (lists : t.Lists n.edges) (passable : e ≠ never) (free : n.Free e) :
    Succeeds (t.insert Edge.compare e) fun (t', _) => t'.Lists (n.addEdge e).edges := by
  refine (insert_lists lists Edge.compare e).imp ?_
  rintro ⟨t', old⟩ ⟨before, after, locates, split, lists'⟩
  cases old with
  | none =>
      obtain ⟨split, below, above⟩ := between_of_locates locates split
      rwa [Node.edges_addEdge split passable below above]
  | some there =>
      obtain ⟨_, member, overlaps⟩ := overlaps_of_locates locates split
      exact (free there member overlaps).elim

theorem fits_of_mem_pieces (splits : x.Splits e pieces)
    (overlap : ∃ code, x.contains code ∧ e.contains code) (free : n.Free x)
    (short : e.last - e.first < bound) : ∀ p ∈ pieces, Fits bound n p := by
  intro p member
  have within : (∀ code, p.contains code → x.contains code) → Fits bound n p := by
    refine fun inside => .inl ⟨fun y there overlaps => ?_, by omega⟩
    obtain ⟨code, inY, inP⟩ := overlaps_iff.1 overlaps
    exact free y there (overlaps_iff.2 ⟨code, inY, inside code inP⟩)
  cases splits.stems p member with
  | left alone _ => exact within fun code inside => (alone code inside).1
  | both shared _ => exact within fun code inside => (shared code inside).1
  | right alone _ =>
      obtain ⟨code, inX, inE⟩ := overlap
      have ordered := splits.ordered p member
      have first := (alone p.first (contains_iff.2 ⟨Nat.le_refl _, ordered⟩)).1
      have last := (alone p.last (contains_iff.2 ⟨ordered, Nat.le_refl _⟩)).1
      have outside : ¬ p.contains code := fun inside => (alone code inside).2 inX
      rw [contains_iff] at first last outside inE
      exact .inr (by omega)

theorem foldlM_addWithin_lists
    (add : ∀ {t : LinkedTree Edge} {n : Node} {e : Edge}, t.Lists n.edges → Fits bound n e →
      Succeeds (t.addWithin bound e) (·.Lists (n.addEdge e).edges))
    (lists : t.Lists n.edges) (apart : pieces.Pairwise extent.Before)
    (fits : ∀ p ∈ pieces, Fits bound n p) :
    Succeeds (pieces.foldlM (addWithin bound) t) (·.Lists (pieces.foldl Node.addEdge n).edges) := by
  induction pieces generalizing t n with
  | nil => exact .pure lists
  | cons p pieces ih =>
      obtain ⟨head, tail⟩ := List.pairwise_cons.1 apart
      rw [List.foldlM_cons]
      refine (add lists (fits p List.mem_cons_self)).bind fun t' lists' => ?_
      refine ih lists' tail fun q member => ?_
      rcases fits q (List.mem_cons_of_mem _ member) with ⟨free, some⟩ | short
      · exact .inl ⟨free.addEdge (head q member).not_overlaps, some⟩
      · exact .inr short

theorem addWithin_lists (lists : t.Lists n.edges) (fits : Fits bound n e) :
    Succeeds (t.addWithin bound e) (·.Lists (n.addEdge e).edges) := by
  induction bound generalizing t n e with
  | zero => rcases fits with ⟨_, some⟩ | short <;> omega
  | succ bound ih =>
      by_cases never : e = never
      · subst never
        exact .pure lists
      have passable : ¬ e.isNever := by cases e <;> simp_all [isNever]
      rw [addWithin, if_neg passable]
      refine (remove_lists lists Edge.compare e).bind ?_
      rintro ⟨t', found⟩ ⟨before, after, locates, split, lists'⟩
      cases found with
      | none =>
          obtain ⟨split, below, above⟩ := between_of_locates locates split
          rw [← split] at lists'
          have free := Node.free_of_between split below above
          exact (insert_free lists' never free).bind fun _ lists => .pure lists
      | some x =>
          obtain ⟨split, member, overlaps⟩ := overlaps_of_locates locates split
          have short : e.last - e.first < bound := by
            rcases fits with ⟨free, _⟩ | short
            · exact (free x member overlaps).elim
            · omega
          have overlap := overlaps_iff.1 overlaps
          obtain ⟨m, rest, rfl, free⟩ := Node.exists_addEdge_eq split
          have splits := splits_separate overlap
          rw [← Node.foldl_addEdge_separate m overlap]
          rw [← rest] at lists'
          exact foldlM_addWithin_lists ih lists' splits.ascending
            (fits_of_mem_pieces splits overlap free short)

theorem addEdge_lists (lists : t.Lists n.edges) (e : Edge) :
    Succeeds (t.addEdge e) (·.Lists (n.addEdge e).edges) :=
  addWithin_lists lists (.inr (Nat.lt_succ_self _))

theorem foldlM_addEdge_lists (lists : t.Lists n.edges) (edges : List Edge) :
    Succeeds (edges.foldlM addEdge t) (·.Lists (edges.foldl Node.addEdge n).edges) := by
  induction edges generalizing t n with
  | nil => exact .pure lists
  | cons e edges ih =>
      rw [List.foldlM_cons]
      exact (addEdge_lists lists e).bind fun t' lists' => ih lists'

theorem overlaps_probe (passable : x ≠ never) {code : Nat} :
    extent.Overlaps x (probe code) ↔ x.contains code := by
  have reach : x.last ≤ epsilonCode := by
    cases x with
    | arc a => exact Nat.le_of_lt (Nat.lt_of_le_of_lt a.range.last_le (by decide))
    | epsilon => exact Nat.le_refl _
    | never => exact (passable rfl).elim
  rw [contains_iff, probe]
  split_ifs with reads silent
  · exact Iff.rfl
  · rw [silent]
    exact Iff.rfl
  · show x.first ≤ neverCode ∧ neverCode ≤ x.last ↔ _
    have : maxCode + 1 = epsilonCode := rfl
    have : epsilonCode + 1 = neverCode := rfl
    omega

theorem edgeFor?_eq (lists : t.Lists n.edges) (code : Nat) :
    t.edgeFor? code = .ok (n.edgeFor? code) := by
  obtain ⟨found, eq, before, after, locates, split⟩ := find_lists lists Edge.compare (probe code)
  have hit : ∀ x ∈ n.edges, extent.Overlaps x (probe code) ↔ x.contains code := fun x member =>
    overlaps_probe (ne_of_mem_of_not_mem member Node.never_notMem_edges)
  rw [edgeFor?, eq]
  cases found with
  | some x =>
      obtain ⟨_, member, overlaps⟩ := overlaps_of_locates locates split
      rw [Node.edgeFor?_of_mem_edges member ((hit x member).1 overlaps)]
  | none =>
      obtain ⟨split, below, above⟩ := between_of_locates locates split
      cases there : n.edgeFor? code with
      | none => rfl
      | some x =>
          have member := Node.mem_edges_of_edgeFor? there
          have overlaps := (hit x member).2 (Node.contains_of_edgeFor? there)
          exact (Node.free_of_between split below above x member overlaps).elim

/-- Edges added to an empty tree, in which a node keeps its edges at first and after they have been
taken, partition the code points: every addition ends, and the tree then lists and answers what
`Node.addEdge_partition` says. -/
theorem addEdges_partition (n : Node) (edges : List Edge) : ∃ t : LinkedTree Edge,
    edges.foldlM addEdge {} = .ok t ∧
      t.toList = .ok (edges.foldl Node.addEdge n.withoutEdges).edges ∧
      (∀ code,
        t.edgeFor? code = .ok ((edges.foldl Node.addEdge n.withoutEdges).edgeFor? code)) ∧
      (edges.foldl Node.addEdge n.withoutEdges).Partitions edges ∧
      (∀ edges', edges.Perm edges' →
        (edges.foldl Node.addEdge n.withoutEdges).arcs.arcs.map Arc.range =
          (edges'.foldl Node.addEdge n.withoutEdges).arcs.arcs.map Arc.range) ∧
      edges.foldl Node.addEdge n.withoutEdges =
        (edges.filter (!·.isNever)).foldl Node.addEdge n.withoutEdges ∧
      ((∀ e ∈ edges, e.targets.Nodup) →
        ∀ e ∈ (edges.foldl Node.addEdge n.withoutEdges).edges, ∀ code, e.contains code →
          e.targets = ((covering edges code).flatMap Edge.targets).eraseDups) := by
  have empty : ({} : LinkedTree Edge).Lists n.withoutEdges.edges := lists_empty
  obtain ⟨t, added, lists⟩ := foldlM_addEdge_lists empty edges
  exact ⟨t, added, lists.toList_eq, edgeFor?_eq lists, n.addEdge_partition edges⟩

end LinkedTree

inductive EdgeRequest where
  | add (e : Edge)
  | edgeFor (code : Nat)
  | list
  | take

def Node.answer (n : Node) : EdgeRequest → Node × List Edge
  | .add e => (n.addEdge e, [])
  | .edgeFor code => (n, (n.edgeFor? code).toList)
  | .list => (n, n.edges)
  | .take => (n.withoutEdges, n.edges)

def Node.answers (n : Node) : List EdgeRequest → List (List Edge)
  | [] => []
  | request :: requests => (n.answer request).2 :: (n.answer request).1.answers requests

namespace LinkedTree

variable {t : LinkedTree Edge} {n : Node}

def answer (t : LinkedTree Edge) : EdgeRequest → Except BrokenTree (LinkedTree Edge × List Edge)
  | .add e => return (← t.addEdge e, [])
  | .edgeFor code => return (t, (← t.edgeFor? code).toList)
  | .list => return (t, ← t.toList)
  | .take => t.drain

def answers (t : LinkedTree Edge) : List EdgeRequest → Except BrokenTree (List (List Edge))
  | [] => return []
  | request :: requests => do
    let (t, edges) ← t.answer request
    return edges :: (← t.answers requests)

theorem answer_lists (lists : t.Lists n.edges) (request : EdgeRequest) :
    Succeeds (t.answer request) fun (t', edges) =>
      edges = (n.answer request).2 ∧ t'.Lists (n.answer request).1.edges := by
  cases request with
  | add e => exact (addEdge_lists lists e).bind fun t' lists' => .pure ⟨rfl, lists'⟩
  | edgeFor code =>
      rw [answer, edgeFor?_eq lists]
      exact .pure ⟨rfl, lists⟩
  | list =>
      rw [answer, lists.toList_eq]
      exact .pure ⟨rfl, lists⟩
  | take =>
      rw [answer, lists.drain_eq]
      exact .pure ⟨rfl, lists_empty⟩

theorem answers_eq (lists : t.Lists n.edges) (requests : List EdgeRequest) :
    t.answers requests = .ok (n.answers requests) := by
  induction requests generalizing t n with
  | nil => rfl
  | cons request requests ih =>
      obtain ⟨⟨t', _⟩, answered, rfl, lists'⟩ := answer_lists lists request
      rw [answers, answered]
      show (t'.answers requests).map _ = _
      rw [ih lists']
      rfl

theorem answers_empty (n : Node) (requests : List EdgeRequest) :
    ({} : LinkedTree Edge).answers requests = .ok (n.withoutEdges.answers requests) :=
  answers_eq lists_empty requests

example : ({} : LinkedTree Edge).answers [.add (.arc ⟨⟨20, 29, by decide, by decide⟩, [1]⟩),
    .add (.arc ⟨⟨40, 49, by decide, by decide⟩, [2]⟩),
    .add (.arc ⟨⟨10, 44, by decide, by decide⟩, [3, 2]⟩), .edgeFor 42, .list] =
      .ok [[], [], [], [.arc ⟨⟨40, 44, by decide, by decide⟩, [2, 3]⟩],
        [.arc ⟨⟨10, 19, by decide, by decide⟩, [3, 2]⟩,
          .arc ⟨⟨20, 29, by decide, by decide⟩, [1, 3, 2]⟩,
          .arc ⟨⟨30, 39, by decide, by decide⟩, [3, 2]⟩,
          .arc ⟨⟨40, 44, by decide, by decide⟩, [2, 3]⟩,
          .arc ⟨⟨45, 49, by decide, by decide⟩, [2]⟩]] := by
  decide +kernel

end LinkedTree

end LongestMatch
