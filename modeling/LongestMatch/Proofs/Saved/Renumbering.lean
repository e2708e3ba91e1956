import LongestMatch.Proofs.Saved.Discovery
import LongestMatch.Proofs.Saved.Loading

namespace LongestMatch

variable {R : Type}

namespace SavedEdge

theorem restores_unique : Relator.BiUnique Restores := by
  constructor
  · rintro ⟨first, last, target⟩ ⟨first', last', target'⟩ a left right
    cases left.first.symm.trans right.first
    cases left.last.symm.trans right.last
    cases left.targets.symm.trans right.targets
    rfl
  · rintro e ⟨range, targets⟩ ⟨range', targets'⟩ left right
    cases CodeRange.ext (left.first.trans right.first.symm) (left.last.trans right.last.symm)
    cases left.targets.trans right.targets.symm
    rfl

theorem ascending_edges {edges : List SavedEdge} {arcs : List Arc}
    (restored : List.Forall₂ Restores edges arcs) (ascending : arcs.Pairwise Arc.Before) :
    edges.Pairwise fun d e => d.first < e.first :=
  pairwise_of_forall₂ restored.flip (fun {a b d e} left right before => by
    have := a.range.first_le_last
    rw [← left.first, ← right.first]
    simp only [Arc.Before] at before
    omega) ascending

end SavedEdge

theorem SavedNode.Restores.arcs_eq {n : SavedNode} {m : Node} {table : HandlerTable R}
    (restored : n.Restores table m) {arcs : List Arc}
    (stored : List.Forall₂ SavedEdge.Restores n.edges arcs) (ascending : arcs.Pairwise Arc.Before) :
    m.arcs.arcs = arcs := by
  obtain ⟨edges, perm, each⟩ := restored.arcs
  have sorted := SavedEdge.ascending_edges each restored.ascending
  have sorted' := SavedEdge.ascending_edges stored ascending
  have same : edges = n.edges := perm.eq_of_pairwise
    (fun d e _ _ before after => absurd before (Nat.lt_asymm after)) sorted sorted'
  subst same
  exact SavedEdge.restores_unique.forall₂.2 each stored

namespace Automaton

variable {a b : Automaton R} {nodes : List NodeId} {id : NodeId} {table : HandlerTable R}

theorem idxOf_range {n i : Nat} (inside : i < n) : (List.range n).idxOf i = i := by
  have place := List.nodup_range.idxOf_getElem i (by rwa [List.length_range])
  rwa [List.getElem_range] at place

def Registered (a : Automaton R) : Prop :=
  ∀ id, a.Reachable id → ∀ h ∈ (a.graph.nodeD id).handlers, ∃ entry, a.handlers.entry? h = some entry

theorem exists_entry_of_nodes (each : ∀ n ∈ a.graph.nodes.toList, ∀ h ∈ n.handlers,
      ∃ entry, a.handlers.entry? h = some entry) (id : NodeId) :
    ∀ h ∈ (a.graph.nodeD id).handlers, ∃ entry, a.handlers.entry? h = some entry :=
  Graph.forall_nodeD (fun n => ∀ h ∈ n.handlers, ∃ entry, a.handlers.entry? h = some entry)
    (fun _ member => (List.not_mem_nil member).elim) each id

/-- What a saved node says of a node: its arcs, with the places of their targets in the list, and
the tags of its handlers. -/
structure Records (a : Automaton R) (nodes : List NodeId) (id : NodeId) (n : SavedNode) : Prop where
  edges : List.Forall₂ SavedEdge.Restores n.edges
    ((a.graph.nodeD id).arcs.arcs.map (Arc.mapped nodes.idxOf))
  handlers : List.Forall₂ (fun h tag => ∃ handler, a.handlers.entry? h = some (tag, handler))
    (a.graph.nodeD id).handlers n.handlers

theorem Records.unique {n n' : SavedNode} (left : a.Records nodes id n)
    (right : a.Records nodes id n') : n = n' := by
  have edges := SavedEdge.restores_unique.forall₂.1 left.edges right.edges
  have tags : Relator.RightUnique fun h tag => ∃ handler, a.handlers.entry? h = some (tag, handler) := by
    rintro h tag tag' ⟨_, entry⟩ ⟨_, entry'⟩
    cases entry.symm.trans entry'
    rfl
  cases n
  cases edges
  cases tags.forall₂ left.handlers right.handlers
  rfl

theorem Single.saveArcs (single : a.Single) (closed : ∀ target ∈ a.successors id, target ∈ nodes) :
    ∃ edges, (a.graph.nodeD id).arcs.arcs.mapM (saveArc nodes) = .ok edges ∧
      List.Forall₂ SavedEdge.Restores edges
        ((a.graph.nodeD id).arcs.arcs.map (Arc.mapped nodes.idxOf)) := by
  obtain ⟨edges, all, each⟩ := exists_mapM (saveArc nodes)
    (fun arc e => e.Restores (arc.mapped nodes.idxOf)) fun arc member => by
      obtain ⟨target, targets, _⟩ := single.arcs id arc member
      have leads : target ∈ arc.targets := targets ▸ List.mem_singleton_self target
      have listed : target ∈ nodes := closed target (mem_successors.2 ⟨arc, member, leads⟩)
      refine ⟨⟨arc.range.first, arc.range.last, nodes.idxOf target⟩, ?_, rfl, rfl, ?_⟩
      · rw [saveArc, targets]
        exact if_pos listed
      · rw [Arc.mapped, targets]
        rfl
  exact ⟨edges, all, List.forall₂_map_right_iff.2 each.flip⟩

theorem Single.saveNode (single : a.Single) (inside : a.graph.HasNode id)
    (closed : ∀ target ∈ a.successors id, target ∈ nodes)
    (registered : ∀ h ∈ (a.graph.nodeD id).handlers, ∃ entry, a.handlers.entry? h = some entry) :
    ∃ n, a.saveNode nodes id = .ok n ∧ a.Records nodes id n := by
  obtain ⟨edges, saved, restores⟩ := single.saveArcs closed
  obtain ⟨tags, named, known⟩ := exists_mapM (fun h => return (← a.registered h).1)
    (fun h tag => ∃ handler, a.handlers.entry? h = some (tag, handler)) fun h member => by
      obtain ⟨⟨tag, handler⟩, there⟩ := registered h member
      exact ⟨tag, by rw [registered_eq there]; rfl, handler, there⟩
  refine ⟨⟨edges, tags⟩, ?_, restores, known⟩
  rw [Automaton.saveNode, node_eq inside]
  simp only [bind, Except.bind] at named ⊢
  rw [saved, named]
  rfl

theorem Lists.save (lists : a.Lists nodes) (single : a.Single) (registered : a.Registered) :
    ∃ s, a.save = .ok s ∧ List.Forall₂ (a.Records nodes) nodes s.nodes := by
  obtain ⟨ns, saved, each⟩ := exists_mapM (a.saveNode nodes) (a.Records nodes)
    fun id member =>
      have reached := lists.reached id member
      single.saveNode (single.reachable_lt reached) (lists.closed id member) (registered id reached)
  refine ⟨⟨ns⟩, ?_, each⟩
  rw [Automaton.save, lists.result]
  simp only [bind, Except.bind, saved]
  rfl

theorem idxOf_map {image : NodeId → NodeId}
    (injective : ∀ m ∈ nodes, ∀ n ∈ nodes, image m = image n → m = n) (member : id ∈ nodes) :
    (nodes.map image).idxOf (image id) = nodes.idxOf id := by
  induction nodes with
  | nil => cases member
  | cons n ns ih =>
      rw [List.map_cons, List.idxOf_cons, List.idxOf_cons]
      by_cases same : n = id
      · simp [same]
      · have apart : image n ≠ image id := fun equal =>
          same (injective n List.mem_cons_self id member equal)
        have later : id ∈ ns := (List.mem_cons.1 member).resolve_left (Ne.symm same)
        have places := ih (fun m first n second =>
          injective m (List.mem_cons_of_mem _ first) n (List.mem_cons_of_mem _ second)) later
        simp only [beq_eq_false_iff_ne.2 same, beq_eq_false_iff_ne.2 apart, places]

def SameTag {R' : Type} (a : Automaton R) (b : Automaton R') (h h' : HandlerId) : Prop :=
  ∃ tag f g, a.handlers.entry? h = some (tag, f) ∧ b.handlers.entry? h' = some (tag, g)

structure Corresponds {R' : Type} (image : NodeId → NodeId) (nodes : List NodeId) (a : Automaton R)
    (b : Automaton R') : Prop where
  injective : ∀ m ∈ nodes, ∀ n ∈ nodes, image m = image n → m = n
  start : b.start = image a.start
  arcs : ∀ id ∈ nodes, (b.graph.nodeD (image id)).arcs.arcs =
    (a.graph.nodeD id).arcs.arcs.map (Arc.mapped image)
  handlers : ∀ id ∈ nodes, List.Forall₂ (SameTag a b) (a.graph.nodeD id).handlers
    (b.graph.nodeD (image id)).handlers

namespace Corresponds

variable {R' : Type} {b : Automaton R'} {image : NodeId → NodeId}
  (corresponds : Corresponds image nodes a b) (lists : a.Lists nodes)

include corresponds lists

theorem reachable (reached : a.Reachable id) : b.Reachable (image id) := by
  induction reached with
  | start => exact corresponds.start ▸ .start
  | @next id target arc reached member leads ih =>
      have stored : arc.mapped image ∈ (b.graph.nodeD (image id)).arcs.arcs := by
        rw [corresponds.arcs id (lists.mem reached)]
        exact List.mem_map_of_mem member
      exact ih.next stored (List.mem_map_of_mem leads)

theorem lists_map (single : b.Single) : b.Lists (nodes.map image) := by
  have inside : ∀ id ∈ nodes, b.graph.HasNode (image id) := fun id member =>
    single.reachable_lt (corresponds.reachable lists (lists.reached id member))
  have distinct : (nodes.map image).Nodup := lists.nodup.map_on corresponds.injective
  have few := NodeId.length_le_of_nodup distinct (List.forall_mem_map.2 inside)
  rw [List.length_map] at few
  have found : b.discover (b.graph.size + 1) 0 ([a.start].map image) = .ok (nodes.map image) :=
    discover_map corresponds.injective inside
      (fun id member => successors_mapped (corresponds.arcs id member)) lists.result (by omega)
  rw [List.map_singleton, ← corresponds.start] at found
  obtain ⟨nodes', lists'⟩ := single.exists_lists
  cases lists'.result.symm.trans found
  exact lists'

theorem registered (single : b.Single) : b.Registered := by
  intro id reached h member
  have listed := (corresponds.lists_map lists single).mem reached
  obtain ⟨original, there, rfl⟩ := List.mem_map.1 listed
  obtain ⟨_, _, tag, f, g, _, entry⟩ :=
    exists_mem_of_forall₂ (corresponds.handlers original there).flip member
  exact ⟨_, entry⟩

theorem records {n : SavedNode} (member : id ∈ nodes) (records : a.Records nodes id n) :
    b.Records (nodes.map image) (image id) n where
  edges := by
    have same : ∀ arc ∈ (a.graph.nodeD id).arcs.arcs,
        (Arc.mapped (nodes.map image).idxOf ∘ Arc.mapped image) arc = arc.mapped nodes.idxOf := by
      intro arc stored
      have places : ∀ target ∈ arc.targets,
          ((nodes.map image).idxOf ∘ image) target = nodes.idxOf target := fun target leads =>
        idxOf_map corresponds.injective
          (lists.closed id member target (mem_successors.2 ⟨arc, stored, leads⟩))
      rw [Function.comp_apply, Arc.mapped, Arc.mapped, Arc.mapped, List.map_map,
        List.map_congr_left places]
    rw [corresponds.arcs id member, List.map_map, List.map_congr_left same]
    exact records.edges
  handlers := forall₂_trans (corresponds.handlers id member).flip records.handlers
    fun ⟨tag, f, g, entry, entry'⟩ ⟨_, known⟩ => by
      cases entry.symm.trans known
      exact ⟨g, entry'⟩

theorem save (single : b.Single) {s : Saved} (records : List.Forall₂ (a.Records nodes) nodes s.nodes) :
    b.save = .ok s := by
  have records' : List.Forall₂ (b.Records (nodes.map image)) (nodes.map image) s.nodes :=
    List.forall₂_map_left_iff.2 (((List.forall₂_and_left ..).2 ⟨fun _ member => member, records⟩).imp
      fun id n ⟨member, here⟩ => corresponds.records lists member here)
  obtain ⟨s', saved, records''⟩ := (corresponds.lists_map lists single).save single
    (corresponds.registered lists single)
  have unique : Relator.RightUnique (b.Records (nodes.map image)) := fun _ _ _ => Records.unique
  obtain ⟨ns⟩ := s
  cases unique.forall₂ records'' records'
  exact saved

end Corresponds

def TagsIn (a : Automaton R) (table : HandlerTable R) : Prop :=
  ∀ id, a.Reachable id → ∀ h ∈ (a.graph.nodeD id).handlers, ∀ entry,
    a.handlers.entry? h = some entry → entry.1 ∈ table.tags

theorem Records.valid {n : SavedNode} (records : a.Records nodes id n) (single : a.Single)
    (closed : ∀ target ∈ a.successors id, target ∈ nodes)
    (tags : ∀ h ∈ (a.graph.nodeD id).handlers, ∀ entry,
      a.handlers.entry? h = some entry → entry.1 ∈ table.tags) :
    n.Valid table nodes.length where
  tags tag member := by
    obtain ⟨h, there, handler, entry⟩ := exists_mem_of_forall₂ records.handlers.flip member
    exact tags h there _ entry
  edges e member := by
    obtain ⟨_, there, restores⟩ := exists_mem_of_forall₂ records.edges member
    obtain ⟨arc, stored, rfl⟩ := List.mem_map.1 there
    obtain ⟨target, targets, _⟩ := single.arcs id arc stored
    have leads : [nodes.idxOf target] = [e.target] := by
      rw [← restores.targets, Arc.mapped, targets]
      rfl
    have listed : target ∈ nodes := closed target
      (mem_successors.2 ⟨arc, stored, targets ▸ List.mem_singleton_self target⟩)
    refine ⟨?_, ?_, ?_⟩
    · rw [← List.singleton_inj.1 leads]
      exact List.idxOf_lt_length_of_mem listed
    · rw [← restores.first, ← restores.last]
      exact CodeRange.first_le_last _
    · rw [← restores.last]
      exact CodeRange.last_le _
  apart := by
    refine pairwise_of_forall₂ records.edges.flip (fun {a b d e} left right before => ?_)
      (Arc.pairwise_mapped nodes.idxOf (a.graph.nodeD id).arcs.disjoint)
    exact .inl (left.last ▸ right.first ▸ before)

theorem Lists.valid (lists : a.Lists nodes) (single : a.Single) (tags : a.TagsIn table) {s : Saved}
    (records : List.Forall₂ (a.Records nodes) nodes s.nodes) : s.Valid table where
  start none := by
    have start := lists.start
    rw [List.length_eq_zero_iff.1 (records.length_eq.trans (List.length_eq_zero_iff.2 none))] at start
    cases start
  nodes n member := by
    obtain ⟨id, listed, here⟩ := exists_mem_of_forall₂ records.flip member
    rw [← records.length_eq]
    exact here.valid single (lists.closed id listed) (tags id (lists.reached id listed))

structure Mirrors (nodes : List NodeId) (a b : Automaton R) : Prop extends Numbers nodes a b where
  handlers : ∀ id ∈ nodes, List.Forall₂
    (fun h h' => ∃ tag f g, a.handlers.entry? h = some (tag, f) ∧ b.handlers.entry? h' = some (tag, g))
    (a.graph.nodeD id).handlers (b.graph.nodeD (nodes.idxOf id)).handlers

theorem Lists.mirrors (lists : a.Lists nodes) {s : Saved}
    (records : List.Forall₂ (a.Records nodes) nodes s.nodes) (restored : s.Restores table b) :
    Mirrors nodes a b := by
  have loaded : ∀ id ∈ nodes, ∃ n, a.Records nodes id n ∧
      n.Restores table (b.graph.nodeD (nodes.idxOf id)) := by
    intro id member
    obtain ⟨n, there, here⟩ := exists_of_forall₂ records (List.getElem?_idxOf member)
    obtain ⟨m, there', here'⟩ := exists_of_forall₂ restored.nodes there
    refine ⟨n, here, ?_⟩
    rw [Array.getElem?_toList] at there'
    rwa [Graph.nodeD, Graph.node?, there']
  refine ⟨⟨?_, ?_, fun id member => ?_⟩, fun id member => ?_⟩
  · rw [Graph.size, ← Array.length_toList, ← restored.nodes.length_eq, ← records.length_eq]
  · obtain ⟨inside, start⟩ := List.getElem?_eq_some_iff.1 lists.start
    rw [restored.start, ← start, lists.nodup.idxOf_getElem]
  · obtain ⟨n, here, here'⟩ := loaded id member
    exact here'.arcs_eq here.edges (Arc.pairwise_mapped _ (a.graph.nodeD id).arcs.disjoint)
  · obtain ⟨n, here, here'⟩ := loaded id member
    refine forall₂_trans here.handlers here'.handlers fun {h tag h'} registered found => ?_
    obtain ⟨f, entry⟩ := registered
    obtain ⟨g, entry'⟩ := HandlerTable.exists_entry? found
    rw [← restored.handlers] at entry'
    exact ⟨tag, f, g, entry, entry'⟩

namespace Mirrors

theorem single (mirrors : Mirrors nodes a b) (lists : a.Lists nodes) (single : a.Single) :
    b.Single where
  start := by
    rw [mirrors.start]
    exact mirrors.lt (List.mem_of_getElem? lists.start)
  arcs id arc member := by
    rcases Nat.lt_or_ge id b.graph.size with inside | beyond
    · obtain ⟨original, listed, rfl⟩ : ∃ original ∈ nodes, id = nodes.idxOf original := by
        rw [mirrors.size] at inside
        exact ⟨nodes[id], List.getElem_mem inside, (lists.nodup.idxOf_getElem id inside).symm⟩
      rw [mirrors.arcs original listed] at member
      obtain ⟨arc, stored, rfl⟩ := List.mem_map.1 member
      obtain ⟨target, targets, _⟩ := single.arcs original arc stored
      refine ⟨nodes.idxOf target, by rw [Arc.mapped, targets]; rfl, mirrors.lt ?_⟩
      exact lists.closed original listed target
        (mem_successors.2 ⟨arc, stored, targets ▸ List.mem_singleton_self target⟩)
    · rw [Graph.nodeD_of_size_le beyond] at member
      cases member

theorem corresponds (mirrors : Mirrors nodes a b) : Corresponds nodes.idxOf nodes a b where
  injective _ member _ _ := (List.idxOf_inj member).1
  start := mirrors.start
  arcs := mirrors.arcs
  handlers := mirrors.handlers

theorem save (mirrors : Mirrors nodes a b) (lists : a.Lists nodes) (single : a.Single) {s : Saved}
    (records : List.Forall₂ (a.Records nodes) nodes s.nodes) : b.save = .ok s :=
  mirrors.corresponds.save lists (mirrors.single lists single) records

end Mirrors

end Automaton

end LongestMatch
