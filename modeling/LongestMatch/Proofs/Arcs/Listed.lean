import Mathlib.Data.List.Pairwise
import LongestMatch.Proofs.Arcs.Separate

namespace LongestMatch

namespace Edge

variable {a b e p q : Edge} {code : Nat} {pieces : List Edge}

instance : IsTrans Edge extent.Before where
  trans a b c first second := by
    have := extent_wellFormed b
    simp only [Extent.Before, Extent.WellFormed] at *
    omega

instance : Std.Asymm extent.Before where
  asymm a b less greater := by
    have := extent_wellFormed a
    have := extent_wellFormed b
    simp only [Extent.Before, Extent.WellFormed] at *
    omega

theorem overlaps_iff : extent.Overlaps a b ↔ ∃ code, a.contains code ∧ b.contains code := by
  rw [← Extent.compare_eq_eq, ← compare_eq_extent, compare_eq_eq_iff]

theorem eq_of_mem_iff {xs ys : List Edge} (ascending : xs.Pairwise extent.Before)
    (ascending' : ys.Pairwise extent.Before) (same : ∀ e, e ∈ xs ↔ e ∈ ys) : xs = ys :=
  List.Pairwise.eq_of_mem_iff ascending ascending' fun {e} => same e

theorem eq_of_contains (ascending : pieces.Pairwise extent.Before) (member : p ∈ pieces)
    (inside : p.contains code) (member' : q ∈ pieces) (inside' : q.contains code) : p = q := by
  have symmetric : Std.Symm fun p q : Edge => ¬ extent.Overlaps p q :=
    ⟨fun _ _ apart overlaps => apart overlaps.symm⟩
  have apart := ascending.imp (S := fun p q => ¬ extent.Overlaps p q) Extent.Before.not_overlaps
  by_contra differ
  exact apart.forall member member' differ (overlaps_iff.2 ⟨code, inside, inside'⟩)

theorem covering_eq_singleton (ascending : pieces.Pairwise extent.Before) (member : p ∈ pieces)
    (inside : p.contains code) : covering pieces code = [p] := by
  refine eq_of_mem_iff (ascending.sublist List.filter_sublist) (List.pairwise_singleton _ p) fun q => ?_
  rw [covering, List.mem_filter, List.mem_singleton]
  constructor
  · rintro ⟨member', inside'⟩
    exact eq_of_contains ascending member' inside' member inside
  · rintro rfl
    exact ⟨member, inside⟩

theorem covering_pair (a b : Edge) (code : Nat) : covering [a, b] code =
    (if a.contains code then [a] else []) ++ if b.contains code then [b] else [] := by
  cases first : a.contains code <;> cases second : b.contains code <;> simp [covering, first, second]

theorem Splits.ascending (splits : a.Splits b pieces) : pieces.Pairwise extent.Before := by
  refine List.isChain_iff_pairwise.1 (splits.adjacent.imp fun p q next => ?_)
  show p.last < q.first
  rw [next]
  exact Nat.lt_succ_self _

theorem Splits.united_eq (splits : a.Splits b pieces) (earlier : List Edge) (code : Nat) :
    united (earlier ++ covering pieces code) = united (earlier ++ covering [a, b] code) := by
  rw [covering_pair]
  by_cases some : ∃ p ∈ pieces, p.contains code
  · obtain ⟨p, member, inside⟩ := some
    rw [covering_eq_singleton splits.ascending member inside, united_concat]
    cases splits.stems p member with
    | left alone targets =>
        obtain ⟨first, second⟩ := alone code inside
        rw [if_pos first, if_neg second, List.append_nil, united_concat, targets]
    | right alone targets =>
        obtain ⟨second, first⟩ := alone code inside
        rw [if_neg first, if_pos second, List.nil_append, united_concat, targets]
    | both shared targets =>
        obtain ⟨first, second⟩ := shared code inside
        rw [if_pos first, if_pos second, ← List.append_assoc, united_concat, united_concat, targets,
          ← NodeId.unite_eq_append]
        cases united earlier with
        | none => rfl
        | some there => exact congrArg Option.some (NodeId.unite_assoc ..)
  · have neither := mt (splits.covers code).2 some
    rw [not_or] at neither
    simp only [if_neg neither.1, if_neg neither.2, not_not.1 (mt covering_ne_nil.1 some),
      List.append_nil]

theorem contains_eq_succ :
    e.contains code = e.contains (code + 1) ↔ e.first ≠ code + 1 ∧ e.last ≠ code := by
  have : e.first ≤ e.last := extent_wellFormed e
  rw [Bool.eq_iff_iff, contains_iff, contains_iff]
  omega

theorem forall_separate_even (overlap : ∃ code, a.contains code ∧ b.contains code) (code : Nat) :
    (∀ p ∈ a.separate b, p.contains code = p.contains (code + 1)) ↔
      ∀ e ∈ [a, b], e.contains code = e.contains (code + 1) := by
  simp only [contains_eq_succ, List.forall_mem_cons, List.not_mem_nil, false_imp_iff, implies_true,
    and_true]
  rcases overlap_cases overlap with
    ⟨x, y, rfl, rfl, lower, upper⟩ | ⟨targets, more, rfl, rfl⟩ | ⟨rfl, rfl⟩
  · rcases Arc.separate_cases x y with
      ⟨apart, _⟩ | ⟨front, shared, back, parts, first, last, before, behind⟩
    · omega
    simp only [separate, parts, List.forall_mem_map, List.forall_mem_append, List.forall_mem_cons,
      Edge.first, Edge.last, first, last]
    have := x.range.first_le_last
    have := y.range.first_le_last
    -- Each of the nine shapes says where its pieces begin and end.
    cases before <;> cases behind <;>
      simp only [List.forall_mem_cons, List.not_mem_nil, false_imp_iff, implies_true, and_true,
        true_and, *] <;> omega
  · simp [separate, Edge.first, Edge.last]
  · simp [separate]

end Edge

namespace Node

open Edge

variable {m n : Node} {e x : Edge} {before after : List Edge}

theorem arc_mem_edges {a : Arc} : arc a ∈ n.edges ↔ a ∈ n.arcs.arcs := by
  simp [edges]

theorem epsilon_mem_edges {targets : List NodeId} :
    .epsilon targets ∈ n.edges ↔ n.epsilon = some targets := by
  simp [edges]

theorem never_notMem_edges : never ∉ n.edges := by
  simp [edges]

theorem mem_edges_of_edgeFor? {code : Nat} (found : n.edgeFor? code = some x) : x ∈ n.edges := by
  rw [edgeFor?] at found
  split at found
  · obtain ⟨targets, eq, rfl⟩ := Option.map_eq_some_iff.1 found
    exact epsilon_mem_edges.2 eq
  · obtain ⟨a, eq, rfl⟩ := Option.map_eq_some_iff.1 found
    exact arc_mem_edges.2 (ArcSet.of_find?_eq_some eq).1

theorem ascending_edges (n : Node) : n.edges.Pairwise extent.Before := by
  refine List.pairwise_append.2 ⟨List.pairwise_map.2 n.arcs.disjoint, ?_, ?_⟩
  · cases n.epsilon <;> simp
  · intro e member x last
    obtain ⟨a, _, rfl⟩ := List.mem_map.1 member
    simp only [Option.mem_toList, Option.map_eq_some_iff] at last
    obtain ⟨targets, _, rfl⟩ := last
    exact Nat.lt_of_le_of_lt a.range.last_le (by decide : maxCode < epsilonCode)

theorem arranged_edges (n : Node) : extent.Arranged n.edges :=
  ⟨fun e _ => extent_wellFormed e, n.ascending_edges⟩

theorem eq_of_edges (edges : m.edges = n.edges) (handlers : m.handlers = n.handlers) : m = n := by
  have arcs : m.arcs.arcs = n.arcs.arcs := Arc.eq_of_mem_iff m.arcs.disjoint n.arcs.disjoint fun a => by
    rw [← arc_mem_edges, edges, arc_mem_edges]
  have epsilon : m.epsilon = n.epsilon := Option.ext fun targets => by
    rw [← epsilon_mem_edges, edges, epsilon_mem_edges]
  obtain ⟨⟨_, _⟩, _, _⟩ := m
  obtain ⟨⟨_, _⟩, _, _⟩ := n
  cases arcs; cases epsilon; cases handlers
  rfl

theorem handlers_addEdge (n : Node) (e : Edge) : (n.addEdge e).handlers = n.handlers := by
  cases e <;> rfl

theorem handlers_foldl_addEdge (n : Node) (edges : List Edge) :
    (edges.foldl addEdge n).handlers = n.handlers := by
  induction edges generalizing n with
  | nil => rfl
  | cons e edges ih => rw [List.foldl_cons, ih, handlers_addEdge]

def Free (n : Node) (e : Edge) : Prop := ∀ x ∈ n.edges, ¬ extent.Overlaps x e

theorem free_of_between (split : n.edges = before ++ after) (below : ∀ y ∈ before, extent.Before y e)
    (above : ∀ y ∈ after, extent.Before e y) : n.Free e := by
  rw [Free, split]
  intro y member
  rcases List.mem_append.1 member with member | member
  · exact (below y member).not_overlaps
  · exact (above y member).not_overlaps'

theorem Free.addEdge (free : n.Free e) (apart : ¬ extent.Overlaps x e) : (n.addEdge x).Free e := by
  intro y member overlaps
  obtain ⟨code, inside, inside'⟩ := overlaps_iff.1 overlaps
  have found := edgeFor?_of_mem_edges member inside
  have passable : code ≠ neverCode := by
    rintro rfl
    rw [edgeFor?_never] at found
    cases found
  have outside : ¬ x.contains code := fun there => apart (overlaps_iff.2 ⟨code, there, inside'⟩)
  have leads := targetsFor_addEdge n x passable
  rw [if_neg outside, targetsFor, targetsFor, found] at leads
  obtain ⟨z, found', _⟩ := Option.map_eq_some_iff.1 leads.symm
  exact free z (mem_edges_of_edgeFor? found')
    (overlaps_iff.2 ⟨code, contains_of_edgeFor? found', inside'⟩)

theorem Free.mem_edges_addEdge (free : n.Free e) (passable : e ≠ never) {y : Edge} :
    y ∈ (n.addEdge e).edges ↔ y = e ∨ y ∈ n.edges := by
  cases e with
  | arc a =>
      have apart : ∀ b ∈ n.arcs.arcs, a.Apart b := by
        intro b member
        have apart := free (arc b) (arc_mem_edges.2 member)
        simp only [Extent.Overlaps, extent, Edge.first, Edge.last] at apart
        simp only [Arc.Apart, Arc.Before]
        omega
      have laid := (Arc.overlay_perm apart).map arc
      simp only [edges, Node.addEdge, ArcSet.overlay, List.mem_append, laid.mem_iff, List.map_cons,
        List.mem_cons, or_assoc]
  | epsilon targets =>
      have none : n.epsilon = none := by
        by_contra some
        obtain ⟨there, eq⟩ := Option.ne_none_iff_exists'.1 some
        exact free _ (epsilon_mem_edges.2 eq) (overlaps_iff.2 ⟨epsilonCode, rfl, rfl⟩)
      simp [edges, Node.addEdge, none, or_comm]
  | never => exact (passable rfl).elim

theorem edges_addEdge (split : n.edges = before ++ after) (passable : e ≠ never)
    (below : ∀ y ∈ before, extent.Before y e) (above : ∀ y ∈ after, extent.Before e y) :
    (n.addEdge e).edges = before ++ e :: after := by
  have arranged := n.arranged_edges
  rw [split] at arranged
  have inserted := arranged.insert (extent_wellFormed e) below above
  refine eq_of_mem_iff (ascending_edges _) inserted.ascending fun y => ?_
  rw [(free_of_between split below above).mem_edges_addEdge passable, split]
  simp [or_left_comm]

theorem edges_foldl_addEdge (n : Node) {ys : List Edge} (ascending : ys.Pairwise extent.Before)
    (passable : never ∉ ys) : (ys.foldl addEdge n.withoutEdges).edges = ys := by
  induction ys using List.reverseRecOn with
  | nil => rfl
  | append_singleton ys e ih =>
      obtain ⟨lower, _, across⟩ := List.pairwise_append.1 ascending
      simp only [List.mem_append, List.mem_singleton, not_or] at passable
      rw [List.foldl_concat]
      exact edges_addEdge ((ih lower passable.1).trans (List.append_nil ys).symm) (Ne.symm passable.2)
        (fun y member => across y member e (List.mem_singleton.2 rfl)) (by simp)

theorem foldl_edges (n : Node) : n.edges.foldl addEdge n.withoutEdges = n :=
  eq_of_edges (edges_foldl_addEdge n n.ascending_edges never_notMem_edges) (handlers_foldl_addEdge ..)

theorem exists_addEdge_eq (split : n.edges = before ++ x :: after) :
    ∃ m : Node, m.edges = before ++ after ∧ m.addEdge x = n ∧ m.Free x := by
  have ascending := n.ascending_edges
  rw [split] at ascending
  have passable : never ∉ before ++ x :: after := split ▸ never_notMem_edges
  have sub : (before ++ after).Sublist (before ++ x :: after) :=
    (List.sublist_cons_self x after).append_left before
  have rest := edges_foldl_addEdge n (ascending.sublist sub) fun member => passable (sub.mem member)
  obtain ⟨_, upper, across⟩ := List.pairwise_append.1 ascending
  have below : ∀ y ∈ before, extent.Before y x := fun y member => across y member x List.mem_cons_self
  have above : ∀ y ∈ after, extent.Before x y := fun y member => List.rel_of_pairwise_cons upper member
  refine ⟨_, rest, eq_of_edges ?_ ?_, free_of_between rest below above⟩
  · rw [edges_addEdge rest (fun eq => passable (by simp [eq])) below above, split]
  · rw [handlers_addEdge, handlers_foldl_addEdge]
    rfl

theorem mem_arcs_of_targetsFor
    (targets : ∀ code, code ≠ neverCode → m.targetsFor code = n.targetsFor code)
    (joined : ∀ code, Arc.Joined m.arcs.arcs code ↔ Arc.Joined n.arcs.arcs code) {a : Arc}
    (member : a ∈ m.arcs.arcs) : a ∈ n.arcs.arcs := by
  have same : ∀ {code}, code ≤ maxCode →
      Arc.targetsAt code m.arcs.arcs = Arc.targetsAt code n.arcs.arcs := fun {code} le => by
    have notEpsilon : code ≠ epsilonCode := Nat.ne_of_lt (Nat.lt_of_le_of_lt le (by decide))
    have notNever : code ≠ neverCode := Nat.ne_of_lt (Nat.lt_of_le_of_lt le (by decide))
    rw [← targetsFor_code notEpsilon, ← targetsFor_code notEpsilon, targets code notNever]
  -- The arcs of both nodes have as ranges the runs that the edges of the first one make.
  have joinedM := foldl_edges m ▸ joined_foldl_addEdge m m.edges
  have freeM := fun {code} => foldl_edges m ▸ targetsAt_foldl_addEdge m m.edges code
  have run := isRun_of_mem joinedM freeM member
  obtain ⟨b, there, range⟩ := exists_arc_of_isRun (fun code => (joined code).symm.trans (joinedM code))
    (fun {code} le => same le ▸ freeM le) run
  have inside : a.range.contains a.range.first :=
    CodeRange.contains_iff.2 ⟨Nat.le_refl _, a.range.first_le_last⟩
  have leads := same (Arc.le_of_contains inside)
  rw [Arc.targetsAt_of_mem m.arcs.disjoint member inside,
    Arc.targetsAt_of_mem n.arcs.disjoint there (range ▸ inside)] at leads
  obtain ⟨_, _⟩ := a
  obtain ⟨_, _⟩ := b
  cases range
  cases leads
  exact there

theorem eq_of_targetsFor (handlers : m.handlers = n.handlers)
    (targets : ∀ code, code ≠ neverCode → m.targetsFor code = n.targetsFor code)
    (joined : ∀ code, Arc.Joined m.arcs.arcs code ↔ Arc.Joined n.arcs.arcs code) : m = n := by
  refine eq_of_edges (eq_of_mem_iff m.ascending_edges n.ascending_edges fun e => ?_) handlers
  cases e with
  | arc a =>
      rw [arc_mem_edges, arc_mem_edges]
      exact ⟨mem_arcs_of_targetsFor targets joined,
        mem_arcs_of_targetsFor (fun code passable => (targets code passable).symm)
          fun code => (joined code).symm⟩
  | epsilon reached =>
      rw [epsilon_mem_edges, epsilon_mem_edges, ← targetsFor_epsilon, ← targetsFor_epsilon,
        targets epsilonCode (by decide)]
  | never => exact iff_of_false never_notMem_edges never_notMem_edges

theorem foldl_addEdge_congr (n : Node) {edges edges' : List Edge}
    (leads : ∀ code, united (covering edges code) = united (covering edges' code))
    (even : ∀ code, covering edges code = covering edges (code + 1) ↔
      covering edges' code = covering edges' (code + 1)) :
    edges.foldl addEdge n.withoutEdges = edges'.foldl addEdge n.withoutEdges := by
  refine eq_of_targetsFor ?_ (fun code passable => ?_) fun code => ?_
  · rw [handlers_foldl_addEdge, handlers_foldl_addEdge]
  · rw [targetsFor_foldl_addEdge n edges passable, targetsFor_foldl_addEdge n edges' passable, leads]
  · rw [joined_foldl_addEdge, joined_foldl_addEdge, even, ne_eq, ne_eq, ← united_eq_none, leads,
      united_eq_none]

theorem foldl_addEdge_separate (n : Node) (overlap : ∃ code, x.contains code ∧ e.contains code) :
    (x.separate e).foldl addEdge n = (n.addEdge x).addEdge e := by
  have same : (n.edges ++ x.separate e).foldl addEdge n.withoutEdges =
      (n.edges ++ [x, e]).foldl addEdge n.withoutEdges := by
    refine foldl_addEdge_congr n (fun code => ?_) fun code => ?_
    · simp only [covering, List.filter_append]
      exact (splits_separate overlap).united_eq (covering n.edges code) code
    · rw [covering_eq_iff, covering_eq_iff, List.forall_mem_append, List.forall_mem_append,
        forall_separate_even overlap]
  rw [List.foldl_append, List.foldl_append, foldl_edges] at same
  exact same

end Node

end LongestMatch
