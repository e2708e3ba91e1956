import Mathlib.Data.Set.Card
import LongestMatch.Proofs.Ascending
import LongestMatch.Proofs.Fragment.Operations

namespace LongestMatch

open Graph Build

namespace Node

theorem epsilonTargets_imaged (image : NodeId → NodeId) (n : Node) :
    (n.imaged image).epsilonTargets = n.epsilonTargets.map image := targets_imaged image n none

theorem allTargets_imaged (image : NodeId → NodeId) (n : Node) :
    Fragment.Copying.allTargets (n.imaged image) = (Fragment.Copying.allTargets n).map image := by
  rw [Fragment.Copying.allTargets, epsilonTargets_imaged, Fragment.Copying.allTargets, List.map_append,
    imaged, List.flatMap_map, List.map_flatMap]
  rfl

theorem mem_allTargets_of_edge {n : Node} {e : Edge} {q : NodeId} (member : e ∈ n.edges)
    (target : q ∈ e.targets) : q ∈ Fragment.Copying.allTargets n := by
  rcases List.mem_append.1 member with arc | epsilon
  · obtain ⟨a, stored, rfl⟩ := List.mem_map.1 arc
    exact List.mem_append_left _ (List.mem_flatMap_of_mem stored target)
  · obtain ⟨targets, there, rfl⟩ := Option.map_eq_some_iff.1 (Option.mem_toList.1 epsilon)
    apply List.mem_append_right
    rw [epsilonTargets, there]
    exact target

end Node

namespace Graph

/-- The graph has been built from nothing, by adding nodes, adding edges and handlers to its nodes,
and taking the edges of a node away. -/
inductive Built : Graph → Prop
  | empty : Built ∅
  | alloc {g : Graph} (built : Built g) : Built (g.push {})
  | addEdge {g : Graph} (id : NodeId) (e : Edge) (built : Built g) : Built (g.modify id (·.addEdge e))
  | takeEdges {g : Graph} (id : NodeId) (built : Built g) : Built (g.modify id Node.withoutEdges)
  | addHandler {g : Graph} (id : NodeId) (h : HandlerId) (built : Built g) :
      Built (g.modify id (·.addHandler h))

theorem forall_modify {g : Graph} (holds : Node → Prop) (each : ∀ n, holds (g.nodeD n))
    (id : NodeId) {change : Node → Node} (kept : ∀ n, holds n → holds (change n)) (n : NodeId) :
    holds ((g.modify id change).nodeD n) := by
  by_cases same : n = id
  · subst same
    rcases Nat.lt_or_ge n g.size with inside | beyond
    · rw [nodeD_modify_self _ inside]
      exact kept _ (each n)
    · rw [nodeD_of_size_le (by rwa [size_modify]), ← nodeD_of_size_le beyond]
      exact each n
  · rw [nodeD_modify_of_ne _ same]
    exact each n

theorem Built.ascending {g : Graph} (built : g.Built) :
    ∀ n, Ascending (g.nodeD n).handlers := by
  let holds (n : Node) : Prop := Ascending n.handlers
  induction built with
  | empty =>
      intro n
      rw [nodeD_of_size_le (Nat.zero_le n)]
      exact .nil
  | alloc _ ih =>
      intro n
      rw [nodeD_push_empty]
      exact ih n
  | addEdge id e _ ih =>
      apply forall_modify holds ih id
      intro n ascending
      cases e <;> exact ascending
  | takeEdges id _ ih => exact forall_modify holds ih id fun _ ascending => ascending
  | addHandler id h _ ih =>
      exact forall_modify holds ih id fun _ ascending => Ascending.pairwise_insert h ascending

end Graph

namespace Fragment

/-- The second graph has the nodes of the first one, behind them an image of each node that can be
reached from the entry of the fragment, and one node more if this is not so for its exit. The other
fragment leads from the image of the entry to that of the exit, or to the node added. -/
structure Copied (f : Fragment) (g : Graph) (image : NodeId → NodeId) (k : Fragment) (h : Graph) :
    Prop where
  kept : ∀ n, g.HasNode n → h.node? n = g.node? n
  bijective : Set.BijOn image (f.region g) (Set.Ico g.size (g.size + (f.region g).ncard))
  entry : k.entry = image f.entry
  arcs : ∀ n ∈ f.region g,
    (h.nodeD (image n)).arcs.arcs = (g.nodeD n).arcs.arcs.map (Arc.mapped image)
  epsilon : ∀ n ∈ f.region g,
    (h.nodeD (image n)).epsilonTargets = (g.nodeD n).epsilonTargets.map image
  ascending : ∀ n ∈ f.region g, Ascending (h.nodeD (image n)).handlers
  handlers : ∀ n ∈ f.region g, ∀ handler,
    handler ∈ (h.nodeD (image n)).handlers ↔ handler ∈ (g.nodeD n).handlers
  exit : (f.exit ∈ f.region g ∧ k.exit = image f.exit ∧ h.size = g.size + (f.region g).ncard) ∨
    (f.exit ∉ f.region g ∧ k.exit = g.size + (f.region g).ncard ∧ h.size = k.exit + 1 ∧
      h.node? k.exit = some {})
  apart : ∀ n, ¬ g.HasNode n → ∀ e ∈ (h.nodeD n).edges, ∀ q ∈ e.targets, ¬ g.HasNode q

namespace Copying

variable {f : Fragment} {g h h₀ : Graph} {c : Copying} {base : Nat} {A : Set NodeId} {n exit : NodeId}

theorem Numbers.bijOn (numbers : c.Numbers base h) :
    Set.BijOn c.imageD {n | n ∈ c.seen} (Set.Ico base (base + c.seen.size)) := by
  refine ⟨?_, ?_, ?_⟩
  · intro n member
    obtain ⟨k, found⟩ := Array.mem_iff_getElem?.1 member
    rw [numbers.imageD found]
    exact ⟨Nat.le_add_right _ _, Nat.add_lt_add_left (Array.getElem?_eq_some_iff.1 found).1 _⟩
  · intro n member m member' same
    obtain ⟨k, found⟩ := Array.mem_iff_getElem?.1 member
    obtain ⟨j, found'⟩ := Array.mem_iff_getElem?.1 member'
    rw [numbers.imageD found, numbers.imageD found'] at same
    obtain rfl := Nat.add_left_cancel same
    exact Option.some.inj (found.symm.trans found')
  · rintro p ⟨new, inside⟩
    obtain ⟨k, rfl⟩ := Nat.exists_eq_add_of_le new
    obtain ⟨n, found⟩ : ∃ n, c.seen[k]? = some n :=
      ⟨_, Array.getElem?_eq_getElem (Nat.lt_of_add_lt_add_left inside)⟩
    exact ⟨n, Array.mem_iff_getElem?.2 ⟨k, found⟩, numbers.imageD found⟩

theorem Numbers.ncard_seen (numbers : c.Numbers base h) : {n | n ∈ c.seen}.ncard = c.seen.size := by
  have listed : {n | n ∈ c.seen} = (c.seen.toList.toFinset : Set Nat) := by
    ext n
    simp
  rw [listed, Set.ncard_coe_finset, List.toFinset_card_of_nodup numbers.nodup, Array.length_toList]

theorem Copies.seen_eq_region (copies : Copies g (f.region g) c c.seen.size h)
    (start : c.seen[0]? = some f.entry) : {n | n ∈ c.seen} = f.region g := by
  apply Set.Subset.antisymm
  · exact copies.within
  · rintro n ⟨word, path⟩
    exact path.mem copies.closed (Array.mem_iff_getElem?.2 ⟨0, start⟩)

theorem Copies.imaged (copies : Copies g A c c.seen.size h) (member : n ∈ c.seen) :
    h.nodeD (c.imageD n) = (g.nodeD n).imaged c.imageD := by
  obtain ⟨k, found⟩ := Array.mem_iff_getElem?.1 member
  rw [copies.numbers.imageD found]
  exact (copies.done k (Array.getElem?_eq_some_iff.1 found).1 n found).1

theorem Copies.apart (copies : Copies g A c c.seen.size h) (new : ¬ g.HasNode n) :
    ∀ e ∈ (h.nodeD n).edges, ∀ q ∈ e.targets, ¬ g.HasNode q := by
  intro e member q target
  rcases copies.cases (Nat.not_lt.1 new) with ⟨k, m, rfl, found, imaged⟩ | empty
  · have there := Node.mem_allTargets_of_edge (imaged ▸ member) target
    rw [Node.allTargets_imaged] at there
    obtain ⟨p, original, rfl⟩ := List.mem_map.1 there
    have seen := (copies.done k (Array.getElem?_eq_some_iff.1 found).1 m found).2 p original
    exact Nat.not_lt.2 (copies.numbers.bijOn.mapsTo seen).1
  · rw [empty] at member
    cases member

theorem Ends.exit_cases (ends : c.Ends g f h₀ exit h) (numbers : c.Numbers g.size h₀) :
    (f.exit ∈ c.seen ∧ exit = c.imageD f.exit ∧ h.size = g.size + c.seen.size) ∨
      (f.exit ∉ c.seen ∧ exit = g.size + c.seen.size ∧ h.size = exit + 1 ∧
        h.node? exit = some {}) := by
  cases ends with
  | seen here =>
      exact .inl ⟨Array.mem_iff_getElem?.2 ⟨_, here⟩, (numbers.imageD here).symm, numbers.size⟩
  | unseen missing =>
      refine .inr ⟨missing, numbers.size, size_push .., ?_⟩
      have added : (h₀.push {}).HasNode h₀.size := by
        rw [HasNode, size_push]
        exact Nat.lt_succ_self _
      rw [node?_of_lt added, nodeD_push_size]

theorem Copies.copied (copies : Copies g (f.region g) c c.seen.size h₀)
    (start : c.seen[0]? = some f.entry) (ends : c.Ends g f h₀ exit h) :
    f.Copied g c.imageD ⟨g.size, exit⟩ h := by
  have region := copies.seen_eq_region start
  have size : (f.region g).ncard = c.seen.size := region ▸ copies.numbers.ncard_seen
  -- A node that is added for the exit has no edges and changes no other node.
  have imaged : ∀ n ∈ f.region g, h.nodeD (c.imageD n) = (g.nodeD n).imaged c.imageD := by
    intro n member
    rw [← region] at member
    rw [ends.nodeD_eq, copies.imaged member]
  constructor
  · intro n old
    have grown : g.size ≤ h.size := Nat.le_trans (copies.numbers.size ▸ Nat.le_add_right _ _) ends.size_le
    rw [node?_of_lt old, node?_of_lt (Nat.lt_of_lt_of_le old grown), ends.nodeD_eq, copies.old n old]
  · rw [size, ← region]
    exact copies.numbers.bijOn
  · exact (copies.numbers.imageD start).symm
  · intro n member
    rw [imaged n member, Node.imaged]
  · intro n member
    rw [imaged n member, Node.epsilonTargets_imaged]
  · intro n member
    rw [imaged n member]
    exact Ascending.pairwise_insertAll _ .nil
  · intro n member handler
    rw [imaged n member, Node.imaged, Ascending.mem_insertAll]
    simp
  · rw [size, ← region]
    exact ends.exit_cases copies.numbers
  · intro n new
    rw [ends.nodeD_eq]
    exact copies.apart new

end Copying

variable {f k : Fragment} {g h : Graph} {image : NodeId → NodeId}

theorem Copied.handlers_eq (copied : f.Copied g image k h) {n : NodeId} (member : n ∈ f.region g)
    (ascending : Ascending (g.nodeD n).handlers) :
    (h.nodeD (image n)).handlers = (g.nodeD n).handlers :=
  Ascending.eq_of_mem_iff (copied.ascending n member) ascending (copied.handlers n member)

/-- In a graph without dangling edges, copying ends, and gives a copy. Handlers that have been added to
the graph one by one are in ascending order and stay the same list; a graph that has been loaded may
list them in another order, and copying sorts them. -/
theorem copy_copied (edges : ∀ n < g.size, ∀ e ∈ (g.nodeD n).edges, ∀ q ∈ e.targets,
    g.HasNode q) (entry : g.HasNode f.entry)
    (exit : g.HasNode f.exit) :
    ∃ image k h, Yields f.copy g k h ∧ f.Copied g image k h ∧
      (g.Built → ∀ n ∈ f.region g, (h.nodeD (image n)).handlers = (g.nodeD n).handlers) := by
  have inside := inside_of_edges edges entry exit
  have runs := f.runsIn_region g
  obtain ⟨c, exit, h₀, h, yields, copies, start, ends⟩ :=
    yields_copy runs.closed inside.region runs.entry
  have copied := copies.copied start ends
  exact ⟨c.imageD, ⟨g.size, exit⟩, h, yields, copied, fun built n member =>
    copied.handlers_eq member (built.ascending n)⟩

theorem copy_copied_tangle :
    (∀ n < tangle.size, ∀ e ∈ (tangle.nodeD n).edges, ∀ q ∈ e.targets,
      tangle.HasNode q) ∧ tangle.Built ∧
    (∃ image k h, Yields (copy ⟨0, 1⟩) tangle k h ∧ Copied ⟨0, 1⟩ tangle image k h ∧
      ∀ n ∈ region ⟨0, 1⟩ tangle, (h.nodeD (image n)).handlers = (tangle.nodeD n).handlers) ∧
    ∃ image k h, Yields (copy ⟨2, 3⟩) tangle k h ∧ Copied ⟨2, 3⟩ tangle image k h ∧
      ∀ n ∈ region ⟨2, 3⟩ tangle, (h.nodeD (image n)).handlers = (tangle.nodeD n).handlers := by
  have edges : ∀ n < tangle.size, ∀ e ∈ (tangle.nodeD n).edges, ∀ q ∈ e.targets,
      tangle.HasNode q := by decide
  have built : tangle.Built := Built.empty.alloc.alloc.alloc.alloc
    |>.addEdge 0 (.arc ⟨⟨105, 107, by decide, by decide⟩, [0, 1]⟩)
    |>.addEdge 1 (.arc ⟨⟨106, 106, by decide, by decide⟩, [0]⟩)
    |>.addEdge 1 (.epsilon [1, 0])
    |>.addEdge 2 (.arc ⟨⟨105, 105, by decide, by decide⟩, [2]⟩)
    |>.addEdge 2 (.epsilon [2])
    |>.addHandler 2 1
    |>.addEdge 3 (.arc ⟨⟨106, 108, by decide, by decide⟩, [2]⟩)
  obtain ⟨image, k, h, yields, copied, handlers⟩ :=
    copy_copied (f := ⟨0, 1⟩) edges (by decide) (by decide)
  obtain ⟨image', k', h', yields', copied', handlers'⟩ :=
    copy_copied (f := ⟨2, 3⟩) edges (by decide) (by decide)
  exact ⟨edges, built, ⟨image, k, h, yields, copied, handlers built⟩,
    image', k', h', yields', copied', handlers' built⟩

end Fragment

end LongestMatch
