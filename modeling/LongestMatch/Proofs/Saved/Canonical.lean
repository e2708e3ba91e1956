import Mathlib.Data.Set.Function
import LongestMatch.Proofs.Saved.Renumbering

/-!
# What is saved is a canonical form

Two automata are saved as the same exactly if the parts of them that can be reached from the starts
are isomorphic (`save_eq_iff`). From the same saved nodes, nodes at the same places of the two lists
correspond to each other (`Lists.isomorphism`). The other way round, the search for nodes follows an
isomorphism, so it lists corresponding nodes at the same places (`Isomorphism.corresponds`).
-/

namespace LongestMatch

namespace Automaton

variable {R R' : Type} {a : Automaton R} {b : Automaton R'} {nodes nodes' : List NodeId}
  {id target : NodeId} {image : NodeId → NodeId}

def Joins (a : Automaton R) (id : NodeId) (range : CodeRange) (target : NodeId) : Prop :=
  ∃ arc ∈ (a.graph.nodeD id).arcs.arcs, arc.range = range ∧ target ∈ arc.targets

/-- A bijection between the nodes that can be reached from the starts. It takes start to start, arcs to
arcs with the same range, and handlers to handlers with the same tags in the same order. -/
structure Isomorphism (image : NodeId → NodeId) (a : Automaton R) (b : Automaton R') : Prop where
  bijective : Set.BijOn image {id | a.Reachable id} {id | b.Reachable id}
  start : image a.start = b.start
  joins : ∀ id target, a.Reachable id → a.Reachable target → ∀ range,
    a.Joins id range target ↔ b.Joins (image id) range (image target)
  handlers : ∀ id, a.Reachable id → List.Forall₂ (SameTag a b)
    (a.graph.nodeD id).handlers (b.graph.nodeD (image id)).handlers

theorem Single.joins_iff (single : a.Single) {range : CodeRange} : a.Joins id range target ↔
    ⟨range, [target]⟩ ∈ (a.graph.nodeD id).arcs.arcs := by
  constructor
  · rintro ⟨arc, member, rfl, leads⟩
    obtain ⟨only, targets, _⟩ := single.arcs id arc member
    rw [targets, List.mem_singleton] at leads
    rwa [leads, ← targets]
  · exact fun member => ⟨_, member, rfl, List.mem_singleton_self target⟩

theorem Joins.reachable {range : CodeRange} (joins : a.Joins id range target)
    (reached : a.Reachable id) : a.Reachable target := by
  obtain ⟨arc, member, _, leads⟩ := joins
  exact reached.next member leads

/-- Both lists of arcs ascend, so they are the same if the same arcs are in them. An arc of the second
automaton leads to the image of a node, since all nodes that can be reached are images. -/
theorem Isomorphism.arcs_eq (isomorphism : Isomorphism image a b) (single : a.Single)
    (single' : b.Single) (reached : a.Reachable id) :
    (b.graph.nodeD (image id)).arcs.arcs = (a.graph.nodeD id).arcs.arcs.map (Arc.mapped image) := by
  refine Arc.eq_of_mem_iff (b.graph.nodeD (image id)).arcs.disjoint
    (Arc.pairwise_mapped image (a.graph.nodeD id).arcs.disjoint) fun arc => ?_
  rw [List.mem_map]
  constructor
  · intro member
    obtain ⟨target', targets, _⟩ := single'.arcs (image id) arc member
    obtain ⟨range, _⟩ := arc
    cases targets
    have joins := single'.joins_iff.2 member
    obtain ⟨target, reached', rfl⟩ :=
      isomorphism.bijective.surjOn (joins.reachable (isomorphism.bijective.mapsTo reached))
    exact ⟨_, single.joins_iff.1 ((isomorphism.joins id target reached reached' range).2 joins), rfl⟩
  · rintro ⟨⟨range, targets⟩, member, rfl⟩
    obtain ⟨target, only, _⟩ := single.arcs id _ member
    cases only
    have joins := single.joins_iff.2 member
    exact single'.joins_iff.1
      ((isomorphism.joins id target reached (joins.reachable reached) range).1 joins)

theorem Isomorphism.corresponds (isomorphism : Isomorphism image a b) (lists : a.Lists nodes)
    (single : a.Single) (single' : b.Single) : Corresponds image nodes a b where
  injective m first n second := isomorphism.bijective.injOn (lists.reached m first) (lists.reached n second)
  start := isomorphism.start.symm
  arcs id member := isomorphism.arcs_eq single single' (lists.reached id member)
  handlers id member := isomorphism.handlers id (lists.reached id member)

def carry (nodes nodes' : List NodeId) (id : NodeId) : NodeId := nodes'.getD (nodes.idxOf id) 0

theorem getElem?_carry (same : nodes.length = nodes'.length) (member : id ∈ nodes) :
    nodes'[nodes.idxOf id]? = some (carry nodes nodes' id) := by
  have inside := List.idxOf_lt_length_of_mem member
  rw [carry, List.getD_eq_getElem?_getD, List.getElem?_eq_getElem (same ▸ inside), Option.getD_some]

theorem carry_mem (same : nodes.length = nodes'.length) (member : id ∈ nodes) :
    carry nodes nodes' id ∈ nodes' := List.mem_of_getElem? (getElem?_carry same member)

theorem idxOf_carry (same : nodes.length = nodes'.length) (nodup : nodes'.Nodup) (member : id ∈ nodes) :
    nodes'.idxOf (carry nodes nodes' id) = nodes.idxOf id := by
  obtain ⟨inside, here⟩ := List.getElem?_eq_some_iff.1 (getElem?_carry same member)
  rw [← here, nodup.idxOf_getElem]

theorem carry_carry (same : nodes.length = nodes'.length) (nodup : nodes'.Nodup) (member : id ∈ nodes) :
    carry nodes' nodes (carry nodes nodes' id) = id := by
  have back := getElem?_carry same.symm (carry_mem same member)
  rw [idxOf_carry same nodup member, List.getElem?_idxOf member] at back
  exact (Option.some.inj back).symm

theorem bijOn_carry (same : nodes.length = nodes'.length) (nodup : nodes.Nodup)
    (nodup' : nodes'.Nodup) : Set.BijOn (carry nodes nodes') {id | id ∈ nodes} {id | id ∈ nodes'} :=
  Set.InvOn.bijOn ⟨fun _ => carry_carry same nodup', fun _ => carry_carry same.symm nodup⟩
    (fun _ => carry_mem same) (fun _ => carry_mem same.symm)

theorem Lists.joins_iff (lists : a.Lists nodes) (member : id ∈ nodes) (range : CodeRange) :
    a.Joins id range target ↔
      ∃ arc ∈ (a.graph.nodeD id).arcs.arcs.map (Arc.mapped nodes.idxOf),
        arc.range = range ∧ nodes.idxOf target ∈ arc.targets := by
  have leads : ∀ arc ∈ (a.graph.nodeD id).arcs.arcs,
      (nodes.idxOf target ∈ arc.targets.map nodes.idxOf ↔ target ∈ arc.targets) := by
    intro arc stored
    refine ⟨fun place => ?_, fun leads => List.mem_map_of_mem leads⟩
    obtain ⟨other, leads, same⟩ := List.mem_map.1 place
    have listed := lists.closed id member other (mem_successors.2 ⟨arc, stored, leads⟩)
    rwa [(List.idxOf_inj listed).1 same] at leads
  constructor
  · rintro ⟨arc, stored, same, next⟩
    exact ⟨arc.mapped nodes.idxOf, List.mem_map_of_mem stored, same, (leads arc stored).2 next⟩
  · rintro ⟨_, there, same, place⟩
    obtain ⟨arc, stored, rfl⟩ := List.mem_map.1 there
    exact ⟨arc, stored, same, (leads arc stored).1 place⟩

theorem exists_records {ns : List SavedNode} (records : List.Forall₂ (a.Records nodes) nodes ns)
    (records' : List.Forall₂ (b.Records nodes') nodes' ns) (member : id ∈ nodes) :
    ∃ n, a.Records nodes id n ∧ b.Records nodes' (carry nodes nodes' id) n := by
  have same : nodes.length = nodes'.length := records.length_eq.trans records'.length_eq.symm
  obtain ⟨n, there, here⟩ := exists_of_forall₂ records (List.getElem?_idxOf member)
  obtain ⟨id', place, here'⟩ := exists_of_forall₂ records'.flip there
  cases place.symm.trans (getElem?_carry same member)
  exact ⟨n, here, here'⟩

theorem Lists.isomorphism (lists : a.Lists nodes) (lists' : b.Lists nodes') {ns : List SavedNode}
    (records : List.Forall₂ (a.Records nodes) nodes ns)
    (records' : List.Forall₂ (b.Records nodes') nodes' ns) :
    Isomorphism (carry nodes nodes') a b := by
  have same : nodes.length = nodes'.length := records.length_eq.trans records'.length_eq.symm
  have listed : {id | a.Reachable id} = {id | id ∈ nodes} :=
    Set.ext fun id => ⟨lists.mem, lists.reached id⟩
  have listed' : {id | b.Reachable id} = {id | id ∈ nodes'} :=
    Set.ext fun id => ⟨lists'.mem, lists'.reached id⟩
  refine ⟨?_, ?_, fun id target reached reached' range => ?_, fun id reached => ?_⟩
  · rw [listed, listed']
    exact bijOn_carry same lists.nodup lists'.nodup
  · have start := getElem?_carry same (lists.mem .start)
    obtain ⟨inside, first⟩ := List.getElem?_eq_some_iff.1 lists.start
    have place : nodes.idxOf a.start = 0 := by rw [← first, lists.nodup.idxOf_getElem]
    rw [place, lists'.start] at start
    exact (Option.some.inj start).symm
  · obtain ⟨n, here, here'⟩ := exists_records records records' (lists.mem reached)
    have arcs := SavedEdge.restores_unique.forall₂.2 here.edges here'.edges
    rw [lists.joins_iff (lists.mem reached), lists'.joins_iff (carry_mem same (lists.mem reached)),
      idxOf_carry same lists'.nodup (lists.mem reached'), arcs]
  · obtain ⟨n, here, here'⟩ := exists_records records records' (lists.mem reached)
    exact forall₂_trans here.handlers here'.handlers.flip
      fun ⟨f, entry⟩ ⟨g, entry'⟩ => ⟨_, f, g, entry, entry'⟩

theorem save_eq_iff (single : a.Single) (single' : b.Single) (registered : a.Registered)
    (registered' : b.Registered) : ∃ s s', a.save = .ok s ∧ b.save = .ok s' ∧
      (s = s' ↔ ∃ image, Isomorphism image a b) := by
  obtain ⟨nodes, lists⟩ := single.exists_lists
  obtain ⟨nodes', lists'⟩ := single'.exists_lists
  obtain ⟨s, saved, records⟩ := lists.save single registered
  obtain ⟨s', saved', records'⟩ := lists'.save single' registered'
  refine ⟨s, s', saved, saved', ?_, ?_⟩
  · rintro rfl
    exact ⟨_, lists.isomorphism lists' records records'⟩
  · rintro ⟨image, isomorphism⟩
    have corresponds := isomorphism.corresponds lists single single'
    cases saved'.symm.trans (corresponds.save lists single' records)
    rfl

def shuttle : Automaton String where
  graph := ⟨#[{ arcs := ⟨[⟨⟨40, 41, by decide, by decide⟩, [1]⟩], by decide⟩ },
    { arcs := ⟨[⟨⟨40, 40, by decide, by decide⟩, [1]⟩, ⟨⟨42, 50, by decide, by decide⟩, [0]⟩],
        by decide⟩
      handlers := [0, 1] }]⟩
  start := 0
  handlers := ⟨#[("word", String.toLower), ("name", String.toUpper)]⟩

/-- The same with other numbers, a node that cannot be reached, and one more handler. -/
def shuttle' : Automaton Nat where
  graph := ⟨#[
    { arcs := ⟨[⟨⟨40, 40, by decide, by decide⟩, [0]⟩, ⟨⟨42, 50, by decide, by decide⟩, [2]⟩],
        by decide⟩
      handlers := [1, 2] },
    { arcs := ⟨[⟨⟨43, 43, by decide, by decide⟩, [0]⟩], by decide⟩
      handlers := [0] },
    { arcs := ⟨[⟨⟨40, 41, by decide, by decide⟩, [0]⟩], by decide⟩ }]⟩
  start := 2
  handlers := ⟨#[("number", String.length), ("word", String.length), ("name", String.length)]⟩

theorem save_eq_iff_shuttle : shuttle.Single ∧ shuttle'.Single ∧ shuttle.Registered ∧
    shuttle'.Registered ∧ ∃ s, shuttle.save = .ok s ∧ shuttle'.save = .ok s ∧
      ∃ image, Isomorphism image shuttle shuttle' := by
  have single : shuttle.Single := .of_nodes (by decide) (by simp [shuttle, Graph.size])
  have single' : shuttle'.Single := .of_nodes (by decide) (by simp [shuttle', Graph.size])
  have registered : shuttle.Registered := fun n _ =>
    exists_entry_of_nodes (by simp [shuttle, HandlerTable.entry?]) n
  have registered' : shuttle'.Registered := fun n _ =>
    exists_entry_of_nodes (by simp [shuttle', HandlerTable.entry?]) n
  have alike : shuttle.save = shuttle'.save := rfl
  obtain ⟨s, s', saved, saved', same⟩ := save_eq_iff single single' registered registered'
  have equal : s = s' := Except.ok.inj (saved.symm.trans (alike.trans saved'))
  exact ⟨single, single', registered, registered', s, saved, equal ▸ saved', same.1 equal⟩

end Automaton

end LongestMatch
