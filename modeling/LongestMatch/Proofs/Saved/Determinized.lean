import LongestMatch.Proofs.Determinize.Walks
import LongestMatch.Proofs.Saved.Renumbering

/-!
# Saving a determinized graph

The subset construction numbers its states in the order in which saving finds them. So all states are
saved, each under its own number, and what is loaded again with the same handlers is the automaton
itself (`determinize_save_load`).
-/

namespace LongestMatch

variable {R : Type}

structure SavedNode.Tells (table : HandlerTable R) (n : SavedNode) (m : Node) : Prop where
  edges : List.Forall₂ SavedEdge.Restores n.edges m.arcs.arcs
  epsilon : m.epsilon = none
  handlers : List.Forall₂ (fun tag h => ∃ handler, table.entry? h = some (tag, handler))
    n.handlers m.handlers

theorem SavedNode.Tells.unique {table : HandlerTable R} {n : SavedNode} {m m' : Node}
    (tells : n.Tells table m) (distinct : table.tags.Nodup) (restored : n.Restores table m') :
    m = m' := by
  have arcs := restored.arcs_eq tells.edges m.arcs.disjoint
  have handlers : List.Forall₂ Eq m.handlers m'.handlers :=
    forall₂_trans tells.handlers.flip restored.handlers fun {h tag h'} known found => by
      obtain ⟨handler, entry⟩ := known
      rw [HandlerTable.find?_of_entry? distinct entry] at found
      exact Option.some.inj found
  have epsilon := tells.epsilon.trans restored.epsilon.symm
  obtain ⟨⟨_, _⟩, _, _⟩ := m
  obtain ⟨⟨_, _⟩, _, _⟩ := m'
  cases arcs
  cases epsilon
  cases List.forall₂_eq_eq_eq ▸ handlers
  rfl

theorem Graph.toList_nodes (g : Graph) : g.nodes.toList = (List.range g.size).map g.nodeD := by
  apply List.ext_getElem
  · rw [List.length_map, List.length_range, Array.length_toList, Graph.size]
  · intro i inside _
    have inside' : i < g.nodes.size := by rwa [Array.length_toList] at inside
    rw [List.getElem_map, List.getElem_range, Array.getElem_toList, nodeD, node?,
      Array.getElem?_eq_getElem inside', Option.getD_some]

theorem Graph.Unfolds.found_le {g : Graph} {i found : Nat} (unfolds : g.Unfolds i found) :
    found ≤ g.size := by
  induction unfolds with
  | done => exact Nat.le_refl _
  | @look i found found' _ next _ ih =>
      have extended := (NodeId.prefix_unite (List.range found)
        ((g.nodeD i).arcs.arcs.flatMap Arc.targets)).length_le
      rw [next, List.length_range, List.length_range] at extended
      exact Nat.le_trans extended ih

namespace Automaton

variable {a : Automaton R}

theorem map_mapped_range {arcs : List Arc} {size : Nat}
    (inside : ∀ arc ∈ arcs, ∀ target ∈ arc.targets, target < size) :
    arcs.map (Arc.mapped (List.range size).idxOf) = arcs := by
  have same : ∀ arc ∈ arcs, arc.mapped (List.range size).idxOf = id arc := by
    intro arc member
    have targets : arc.targets.map (List.range size).idxOf = arc.targets.map id :=
      List.map_congr_left fun target leads => idxOf_range (inside arc member target leads)
    rw [Arc.mapped, targets, List.map_id]
    rfl
  rw [List.map_congr_left same, List.map_id]

theorem Single.targets_lt (single : a.Single) (id : NodeId) :
    ∀ arc ∈ (a.graph.nodeD id).arcs.arcs, ∀ target ∈ arc.targets,
      a.graph.HasNode target := by
  intro arc stored target leads
  obtain ⟨only, targets, inside⟩ := single.arcs id arc stored
  rw [targets, List.mem_singleton] at leads
  exact leads ▸ inside

theorem discover_of_unfolds {i found bound : Nat} (unfolds : a.graph.Unfolds i found)
    (room : a.graph.size < i + bound) :
    a.discover bound i (List.range found) = .ok (List.range a.graph.size) := by
  induction unfolds generalizing bound with
  | done => exact discover_of_none (by simp)
  | @look i found found' inside next rest ih =>
      have inside' : a.graph.HasNode i :=
        Nat.lt_of_lt_of_le inside (Graph.Unfolds.look inside next rest).found_le
      obtain ⟨left, rfl⟩ : ∃ left, bound = left + 1 := ⟨bound - 1, by omega⟩
      have here : (List.range found)[i]? = some i := List.getElem?_range inside
      rw [discover_of_some here inside', successors, next]
      exact ih (by omega)

theorem Single.save_load_range (single : a.Single) (plain : ∀ id, (a.graph.nodeD id).epsilon = none)
    (ordered : a.reachable = .ok (List.range a.graph.size)) (registered : a.Registered)
    (distinct : a.handlers.tags.Nodup) :
    ∃ s, a.save = .ok s ∧ List.Forall₂ (SavedNode.Tells a.handlers) s.nodes a.graph.nodes.toList ∧
      s.load a.handlers = .ok a := by
  obtain ⟨nodes, lists⟩ := single.exists_lists
  cases lists.result.symm.trans ordered
  obtain ⟨s, saved, records⟩ := lists.save single registered
  -- The place of a node in the list of all nodes is its number, so the targets are saved unchanged.
  have tells : List.Forall₂ (SavedNode.Tells a.handlers) s.nodes a.graph.nodes.toList := by
    rw [Graph.toList_nodes, List.forall₂_map_right_iff]
    refine records.flip.imp fun n id here => ⟨?_, plain id, here.handlers.flip⟩
    have edges := here.edges
    rwa [map_mapped_range (single.targets_lt id)] at edges
  have start : a.start = 0 := by
    obtain ⟨inside, first⟩ := List.getElem?_eq_some_iff.1 lists.start
    rw [← first, List.getElem_range]
  have valid := lists.valid single (fun _ _ _ _ _ known => HandlerTable.mem_tags known) records
  rcases s.load_cases a.handlers with ⟨b, loaded, _, restored⟩ | ⟨_, _, defective⟩
  · have same : a.graph.nodes.toList = b.graph.nodes.toList := by
      rw [← List.forall₂_eq_eq_eq]
      exact forall₂_trans tells.flip restored.nodes fun here there => here.unique distinct there
    have graph : b.graph = a.graph := congrArg Graph.mk (Array.toList_inj.1 same.symm)
    have whole : b = a := by
      show Automaton.mk b.graph b.start b.handlers = a
      rw [graph, restored.start, ← start, restored.handlers]
    exact ⟨s, saved, tells, whole ▸ loaded⟩
  · exact (defective.not_valid valid).elim

end Automaton

theorem determinize_save_load {g : Graph} {p : NodeId} {limit : Option Nat} {a : Automaton R}
    (inside : ∀ n < g.size, ∀ e ∈ (g.nodeD n).edges, ∀ q ∈ e.targets, g.HasNode q)
    (member : g.HasNode p) (result : g.determinize p limit = .ok (a.graph, a.start))
    (filled : a.handlers.Filled)
    (registered : ∀ n, ∀ h ∈ (a.graph.nodeD n).handlers, ∃ entry, a.handlers.entry? h = some entry) :
    a.start = 0 ∧ a.reachable = .ok (List.range a.graph.size) ∧ ∃ s, a.save = .ok s ∧
      List.Forall₂ (SavedNode.Tells a.handlers) s.nodes a.graph.nodes.toList ∧
        s.load a.handlers = .ok a := by
  rcases Graph.determinize_cases (Graph.region_of_edges inside) member limit with
    ⟨bound, _, full⟩ | ⟨s, result', finished⟩
  · rw [result] at full
    cases full
  rw [result] at result'
  obtain ⟨graph, start⟩ : a.graph = s.states ∧ a.start = 0 := by simpa using result'
  obtain ⟨set, known, _⟩ := finished.start
  have unfolds := finished.unfolds
  have plain := finished.epsilon
  have arcs := finished.single finished.expanded
  rw [← graph] at unfolds plain arcs
  have single : a.Single := ⟨by rw [graph, start]; exact finished.hasNode known, arcs⟩
  have ordered : a.reachable = .ok (List.range a.graph.size) := by
    rw [Automaton.reachable, start]
    exact Automaton.discover_of_unfolds unfolds (by omega)
  exact ⟨start, ordered, single.save_load_range plain ordered (fun id _ => registered id)
    (HandlerTable.filled_iff.1 filled)⟩

def forked : Graph where
  nodes := #[
    ({} : Node).addEdge (.arc ⟨⟨200, 202, by decide, by decide⟩, [1, 0]⟩),
    (({} : Node).addEdge (.arc ⟨⟨201, 203, by decide, by decide⟩, [0]⟩)).addHandler 1]

/-- The states of `forked`, the second of which stands for both nodes. -/
def merged : Automaton String where
  graph := ⟨#[
    { arcs := ⟨[⟨⟨200, 202, by decide, by decide⟩, [1]⟩], by decide⟩ },
    { arcs := ⟨[⟨⟨200, 200, by decide, by decide⟩, [1]⟩, ⟨⟨201, 202, by decide, by decide⟩, [1]⟩,
        ⟨⟨203, 203, by decide, by decide⟩, [0]⟩], by decide⟩
      handlers := [1] }]⟩
  start := 0
  handlers := ⟨#[("blank", id), ("word", String.toUpper)]⟩

theorem determinize_save_load_merged :
    (∀ n < forked.size, ∀ e ∈ (forked.nodeD n).edges, ∀ q ∈ e.targets,
      forked.HasNode q) ∧ forked.HasNode 0 ∧
    forked.determinize 0 none = .ok (merged.graph, merged.start) ∧ merged.handlers.Filled ∧
    (∀ n, ∀ h ∈ (merged.graph.nodeD n).handlers, ∃ entry, merged.handlers.entry? h = some entry) ∧
    merged.start = 0 ∧ merged.reachable = .ok (List.range merged.graph.size) ∧ ∃ s, merged.save = .ok s ∧
      List.Forall₂ (SavedNode.Tells merged.handlers) s.nodes merged.graph.nodes.toList ∧
        s.load merged.handlers = .ok merged := by
  have inside : ∀ n < forked.size, ∀ e ∈ (forked.nodeD n).edges, ∀ q ∈ e.targets,
      forked.HasNode q := by decide
  have start : forked.HasNode 0 := by decide
  have result : forked.determinize 0 none = .ok (merged.graph, merged.start) := by rfl
  have filled : merged.handlers.Filled := HandlerTable.filled_iff.2 (by decide)
  have registered : ∀ n, ∀ h ∈ (merged.graph.nodeD n).handlers,
      ∃ entry, merged.handlers.entry? h = some entry :=
    Automaton.exists_entry_of_nodes (by simp [merged, HandlerTable.entry?])
  exact ⟨inside, start, result, filled, registered,
    determinize_save_load inside start result filled registered⟩

end LongestMatch
