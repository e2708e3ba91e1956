import Mathlib.Data.List.Nodup
import LongestMatch.Proofs.Automaton.Walk
import LongestMatch.Saved.Basic

namespace LongestMatch

namespace NodeId

theorem prefix_unite (targets more : List NodeId) : targets <+: unite targets more := by
  induction more generalizing targets with
  | nil => exact List.prefix_rfl
  | cons m more ih =>
      rw [unite_cons]
      split
      · exact ih targets
      · exact (List.prefix_append targets [m]).trans (ih _)

theorem getElem?_of_prefix {targets nodes : List NodeId} (extended : targets <+: nodes) {i : Nat}
    {id : NodeId} (here : targets[i]? = some id) : nodes[i]? = some id := by
  obtain ⟨more, rfl⟩ := extended
  rwa [List.getElem?_append_left (List.getElem?_eq_some_iff.1 here).1]

theorem length_le_of_nodup {nodes : List Nat} (nodup : nodes.Nodup) {size : Nat}
    (inside : ∀ n ∈ nodes, n < size) : nodes.length ≤ size := by
  have subset : nodes ⊆ List.range size := fun n member => List.mem_range.2 (inside n member)
  simpa using (List.subperm_of_subset nodup subset).length_le

end NodeId

namespace Automaton

variable {R : Type} {a b : Automaton R} {id : NodeId} {bound i : Nat} {found nodes : List NodeId}

inductive Reachable (a : Automaton R) : NodeId → Prop
  | start : Reachable a a.start
  | next {id target : NodeId} {arc : Arc} : Reachable a id →
      arc ∈ (a.graph.nodeD id).arcs.arcs → target ∈ arc.targets → Reachable a target

def successors (a : Automaton R) (id : NodeId) : List NodeId :=
  (a.graph.nodeD id).arcs.arcs.flatMap Arc.targets

theorem mem_successors {target : NodeId} : target ∈ a.successors id ↔
    ∃ arc ∈ (a.graph.nodeD id).arcs.arcs, target ∈ arc.targets := List.mem_flatMap

theorem Reachable.successor {target : NodeId} (reached : a.Reachable id)
    (next : target ∈ a.successors id) : a.Reachable target := by
  obtain ⟨arc, member, leads⟩ := mem_successors.1 next
  exact .next reached member leads

theorem Single.reachable_lt (single : a.Single) (reached : a.Reachable id) :
    a.graph.HasNode id := by
  induction reached with
  | start => exact single.start
  | next _ member target =>
      obtain ⟨only, targets, inside⟩ := single.arcs _ _ member
      rw [targets, List.mem_singleton] at target
      exact target ▸ inside

theorem discover_of_none (none : found[i]? = none) : a.discover bound i found = .ok found := by
  rw [discover.eq_def, none]

theorem discover_of_some (here : found[i]? = some id) (inside : a.graph.HasNode id) :
    a.discover (bound + 1) i found =
      a.discover bound (i + 1) (NodeId.unite found (a.successors id)) := by
  rw [discover.eq_def, here]
  simp only [node_eq inside]
  rfl

theorem Single.exists_discover (single : a.Single) (nodup : found.Nodup)
    (reached : ∀ id ∈ found, a.Reachable id) (room : a.graph.size < i + bound) :
    ∃ nodes, a.discover bound i found = .ok nodes ∧ found <+: nodes ∧ nodes.Nodup ∧
      (∀ id ∈ nodes, a.Reachable id) ∧
      ∀ j id, i ≤ j → nodes[j]? = some id → ∀ target ∈ a.successors id, target ∈ nodes := by
  induction bound generalizing i found with
  | zero =>
      have few := NodeId.length_le_of_nodup nodup fun id member =>
        single.reachable_lt (reached id member)
      refine ⟨found, discover_of_none (List.getElem?_eq_none (by omega)), List.prefix_rfl, nodup,
        reached, fun j id le there => ?_⟩
      rw [List.getElem?_eq_none (by omega)] at there
      cases there
  | succ bound ih =>
      cases here : found[i]? with
      | none =>
          refine ⟨found, discover_of_none here, List.prefix_rfl, nodup, reached,
            fun j id le there => ?_⟩
          rw [List.getElem?_eq_none ((List.getElem?_eq_none_iff.1 here).trans le)] at there
          cases there
      | some id =>
          have reach := reached id (List.mem_of_getElem? here)
          have reached' : ∀ n ∈ NodeId.unite found (a.successors id), a.Reachable n := by
            intro n member
            rcases NodeId.mem_unite.1 member with old | next
            · exact reached n old
            · exact reach.successor next
          obtain ⟨nodes, result, extended, nodup', reached'', closed⟩ :=
            ih (NodeId.nodup_unite nodup _) reached' (i := i + 1) (by omega)
          rw [discover_of_some here (single.reachable_lt reach)]
          refine ⟨nodes, result, (NodeId.prefix_unite ..).trans extended, nodup', reached'',
            fun j n le there target next => ?_⟩
          rcases Nat.eq_or_lt_of_le le with rfl | later
          · have grown := (NodeId.prefix_unite found (a.successors id)).trans extended
            cases there.symm.trans (NodeId.getElem?_of_prefix grown here)
            exact extended.subset (NodeId.mem_unite.2 (.inr next))
          · exact closed j n later there target next

theorem discover_cases (result : a.discover bound i found = .ok nodes) :
    (found[i]? = none ∧ nodes = found) ∨ ∃ id left, found[i]? = some id ∧ bound = left + 1 ∧
      a.discover left (i + 1) (NodeId.unite found (a.successors id)) = .ok nodes := by
  cases here : found[i]? with
  | none =>
      cases result.symm.trans (discover_of_none here)
      exact .inl ⟨rfl, rfl⟩
  | some id =>
      cases bound with
      | zero =>
          rw [discover.eq_def, here] at result
          cases result
      | succ left =>
          refine .inr ⟨id, left, rfl, rfl, ?_⟩
          by_cases inside : a.graph.HasNode id
          · rwa [discover_of_some here inside] at result
          · have missing : a.node id = .error (.fault (.unknownNode id)) := by
              rw [node, Graph.node?, Array.getElem?_eq_none (Nat.not_lt.1 inside)]
            rw [discover.eq_def, here] at result
            simp only [missing] at result
            cases result

theorem prefix_discover (result : a.discover bound i found = .ok nodes) : found <+: nodes := by
  induction bound generalizing i found with
  | zero =>
      rcases discover_cases result with ⟨_, rfl⟩ | ⟨id, left, _, more, _⟩
      · exact List.prefix_rfl
      · cases more
  | succ bound ih =>
      rcases discover_cases result with ⟨_, rfl⟩ | ⟨id, left, _, more, rest⟩
      · exact List.prefix_rfl
      · cases more
        exact (NodeId.prefix_unite ..).trans (ih rest)

structure Lists (a : Automaton R) (nodes : List NodeId) : Prop where
  result : a.reachable = .ok nodes
  nodup : nodes.Nodup
  reached : ∀ id ∈ nodes, a.Reachable id
  start : nodes[0]? = some a.start
  closed : ∀ id ∈ nodes, ∀ target ∈ a.successors id, target ∈ nodes

theorem Single.exists_lists (single : a.Single) : ∃ nodes, a.Lists nodes := by
  have reached : ∀ id ∈ [a.start], a.Reachable id := fun id member => by
    rw [List.mem_singleton.1 member]
    exact .start
  obtain ⟨nodes, result, extended, nodup, reached', closed⟩ :=
    single.exists_discover (List.nodup_singleton _) reached
      (show a.graph.size < 0 + (a.graph.size + 1) by omega)
  refine ⟨nodes, result, nodup, reached', NodeId.getElem?_of_prefix extended rfl,
    fun id member target next => ?_⟩
  obtain ⟨j, there⟩ := List.mem_iff_getElem?.1 member
  exact closed j id (Nat.zero_le j) there target next

theorem Lists.mem (lists : a.Lists nodes) (reached : a.Reachable id) : id ∈ nodes := by
  induction reached with
  | start => exact List.mem_of_getElem? lists.start
  | next _ member leads ih =>
      exact lists.closed _ ih _ (mem_successors.2 ⟨_, member, leads⟩)

theorem discover_map {R' : Type} {b : Automaton R'} {image : NodeId → NodeId}
    (injective : ∀ m ∈ nodes, ∀ n ∈ nodes, image m = image n → m = n)
    (inside : ∀ id ∈ nodes, b.graph.HasNode (image id))
    (successors : ∀ id ∈ nodes, b.successors (image id) = (a.successors id).map image)
    (result : a.discover bound i found = .ok nodes) {bound' : Nat}
    (room : nodes.length < i + bound') :
    b.discover bound' i (found.map image) = .ok (nodes.map image) := by
  have extended := prefix_discover result
  induction bound generalizing i found bound' with
  | zero =>
      rcases discover_cases result with ⟨none, rfl⟩ | ⟨id, left, _, more, _⟩
      · exact discover_of_none (by rw [List.getElem?_map, none]; rfl)
      · cases more
  | succ bound ih =>
      rcases discover_cases result with ⟨none, rfl⟩ | ⟨id, left, here, more, rest⟩
      · exact discover_of_none (by rw [List.getElem?_map, none]; rfl)
      · cases more
        have place := NodeId.getElem?_of_prefix extended here
        have member := List.mem_of_getElem? place
        obtain ⟨within, _⟩ := List.getElem?_eq_some_iff.1 place
        obtain ⟨left', rfl⟩ : ∃ left', bound' = left' + 1 := ⟨bound' - 1, by omega⟩
        have extended' := prefix_discover rest
        have apart : ∀ m ∈ NodeId.unite found (a.successors id),
            ∀ n ∈ NodeId.unite found (a.successors id), image m = image n → m = n :=
          fun m first n second => injective m (extended'.subset first) n (extended'.subset second)
        rw [discover_of_some (by rw [List.getElem?_map, here]; rfl) (inside id member),
          successors id member, ← NodeId.map_unite _ apart]
        exact ih rest (by omega) extended'

theorem successors_mapped {R' : Type} {b : Automaton R'} {image : NodeId → NodeId} {id' : NodeId}
    (arcs : (b.graph.nodeD id').arcs.arcs = (a.graph.nodeD id).arcs.arcs.map (Arc.mapped image)) :
    b.successors id' = (a.successors id).map image := by
  rw [successors, arcs, List.flatMap_map, successors, List.map_flatMap]
  rfl

structure Numbers (nodes : List NodeId) (a b : Automaton R) : Prop where
  size : b.graph.size = nodes.length
  start : b.start = nodes.idxOf a.start
  arcs : ∀ id ∈ nodes, (b.graph.nodeD (nodes.idxOf id)).arcs.arcs =
    (a.graph.nodeD id).arcs.arcs.map (Arc.mapped nodes.idxOf)

namespace Numbers

theorem lt (numbers : Numbers nodes a b) (member : id ∈ nodes) :
    b.graph.HasNode (nodes.idxOf id) := by
  rw [Graph.HasNode, numbers.size]
  exact List.idxOf_lt_length_of_mem member

end Numbers

end Automaton

end LongestMatch
