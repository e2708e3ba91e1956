import LongestMatch.Proofs.Ascending
import LongestMatch.Proofs.Determinize.Closure

namespace LongestMatch

theorem ArcSet.mem_targetsAt_overlay (arcs : ArcSet) (a : Arc) (code : Nat) (q : NodeId) :
    q ∈ (Arc.targetsAt code (arcs.overlay a).arcs).getD [] ↔
      q ∈ (Arc.targetsAt code arcs.arcs).getD [] ∨ a.range.contains code ∧ q ∈ a.targets :=
  Node.mem_targets_addEdge { arcs } (.arc a) (some code) q

namespace Graph

variable {g : Graph} {set : List NodeId} {code : Nat} {q : NodeId}

theorem mem_foldl_insertAll (g : Graph) (set : List NodeId) (handlers : List HandlerId)
    (h : HandlerId) :
    h ∈ set.foldl (fun handlers n => Ascending.insertAll handlers (g.nodeD n).handlers) handlers ↔
      h ∈ handlers ∨ ∃ n ∈ set, h ∈ (g.nodeD n).handlers := by
  induction set generalizing handlers with
  | nil => simp
  | cons n set ih => simp [ih, Ascending.mem_insertAll, or_assoc]

theorem mem_handlersOf {h : HandlerId} :
    h ∈ g.handlersOf set ↔ ∃ n ∈ set, h ∈ (g.nodeD n).handlers := by
  simp [handlersOf, mem_foldl_insertAll]

theorem pairwise_handlersOf (g : Graph) (set : List NodeId) : Ascending (g.handlersOf set) := by
  have all : ∀ handlers : List Nat, Ascending handlers → Ascending
      (set.foldl (fun handlers n => Ascending.insertAll handlers (g.nodeD n).handlers)
        handlers) := by
    induction set with
    | nil => exact fun _ ascending => ascending
    | cons n set ih => exact fun _ ascending => ih _ (Ascending.pairwise_insertAll _ ascending)
  exact all [] .nil

def arcsOf (g : Graph) (set : List NodeId) : ArcSet :=
  set.foldl (fun arcs n => (g.nodeD n).arcs.arcs.foldl ArcSet.overlay arcs) ∅

theorem pour_withoutEdges (g : Graph) (set : List NodeId) (n : Node) :
    g.pour set n.withoutEdges = { n.withoutEdges with arcs := g.arcsOf set } := by
  have one : ∀ (more : List Arc) (node : Node), more.foldl (fun node a => node.addEdge (.arc a)) node =
      { node with arcs := more.foldl ArcSet.overlay node.arcs } := by
    intro more
    induction more with
    | nil => exact fun _ => rfl
    | cons a more ih => exact fun node => ih _
  have all : ∀ node : Node, g.pour set node = { node with
      arcs := set.foldl (fun arcs n => (g.nodeD n).arcs.arcs.foldl ArcSet.overlay arcs) node.arcs } := by
    induction set with
    | nil => exact fun _ => rfl
    | cons m set ih =>
        intro node
        rw [pour, List.foldl_cons, one, ← pour, ih]
        rfl
  exact all _

theorem mem_targetsAt_foldl (arcs : ArcSet) (more : List Arc) :
    q ∈ (Arc.targetsAt code (more.foldl ArcSet.overlay arcs).arcs).getD [] ↔
      q ∈ (Arc.targetsAt code arcs.arcs).getD [] ∨ ∃ a ∈ more, a.range.contains code ∧ q ∈ a.targets := by
  induction more generalizing arcs with
  | nil => simp
  | cons a more ih => simp [ih, ArcSet.mem_targetsAt_overlay, or_assoc]

theorem mem_targetsAt_arcsOf :
    q ∈ (Arc.targetsAt code (g.arcsOf set).arcs).getD [] ↔ ∃ n ∈ set, q ∈ g.targets n (some code) := by
  have all : ∀ arcs : ArcSet, q ∈ (Arc.targetsAt code (set.foldl (fun arcs n =>
      (g.nodeD n).arcs.arcs.foldl ArcSet.overlay arcs) arcs).arcs).getD [] ↔
        q ∈ (Arc.targetsAt code arcs.arcs).getD [] ∨ ∃ n ∈ set, q ∈ g.targets n (some code) := by
    induction set with
    | nil => simp
    | cons n set ih => simp [ih, mem_targetsAt_foldl, mem_targets_iff, or_assoc]
  rw [arcsOf, all]
  simp [Arc.targetsAt, EmptyCollection.emptyCollection]

theorem targetsAt_foldl_eq_none (arcs : ArcSet) (more : List Arc) :
    Arc.targetsAt code (more.foldl ArcSet.overlay arcs).arcs = none ↔
      Arc.targetsAt code arcs.arcs = none ∧ ∀ a ∈ more, ¬ a.range.contains code := by
  induction more generalizing arcs with
  | nil => simp
  | cons a more ih =>
      rw [List.foldl_cons, ih, ArcSet.overlay, Arc.targetsAt_overlay a arcs.disjoint,
        List.forall_mem_cons, ← and_assoc]
      by_cases reads : a.range.contains code <;> simp [reads]

theorem targetsAt_arcsOf_eq_none : Arc.targetsAt code (g.arcsOf set).arcs = none ↔
    ∀ n ∈ set, ∀ a ∈ (g.nodeD n).arcs.arcs, ¬ a.range.contains code := by
  have all : ∀ arcs : ArcSet, Arc.targetsAt code (set.foldl (fun arcs n =>
      (g.nodeD n).arcs.arcs.foldl ArcSet.overlay arcs) arcs).arcs = none ↔
        Arc.targetsAt code arcs.arcs = none ∧
          ∀ n ∈ set, ∀ a ∈ (g.nodeD n).arcs.arcs, ¬ a.range.contains code := by
    induction set with
    | nil => simp
    | cons n set ih =>
        intro arcs
        rw [List.foldl_cons, ih, targetsAt_foldl_eq_none, List.forall_mem_cons, and_assoc]
  rw [arcsOf, all]
  exact and_iff_right rfl

end Graph

end LongestMatch
