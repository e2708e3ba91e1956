import LongestMatch.Proofs.Lexer.Assembled
import LongestMatch.Proofs.Saved.Renumbering

namespace LongestMatch

theorem Graph.walk_concat {g : Graph} {id n : NodeId} {word : List Nat}
    (walk : g.walk id word = some n) (code : Nat) : g.walk id (word ++ [code]) = g.next? n code := by
  induction word generalizing id with
  | nil =>
      cases walk
      show (g.next? n code).bind some = _
      exact Option.bind_fun_some _
  | cons first word ih =>
      obtain ⟨next, step, rest⟩ := Option.bind_eq_some_iff.1 walk
      rw [List.cons_append, Graph.walk, step]
      exact ih rest

theorem SavedNode.Restores.registered {R : Type} {table : HandlerTable R} {n : SavedNode} {m : Node}
    (restored : n.Restores table m) {h : HandlerId} (member : h ∈ m.handlers) :
    ∃ entry, table.entry? h = some entry := by
  obtain ⟨tag, _, found⟩ := exists_mem_of_forall₂ restored.handlers.flip member
  obtain ⟨handler, entry⟩ := HandlerTable.exists_entry? found
  exact ⟨_, entry⟩

namespace Automaton

variable {R : Type} {a : Automaton R} {id : NodeId}

structure Sound (a : Automaton R) : Prop where
  single : a.Single
  registered : a.Registered

inductive Made (a : Automaton R) : Prop
  | built {σ : Type} {l : Lexer R} {x y : Logged σ} : l.build x = .ok a y → Made a
  | loaded {s : Saved} {table : HandlerTable R} : s.load table = .ok a → Made a

theorem Single.next?_eq (single : a.Single) {arc : Arc} {target : NodeId}
    (member : arc ∈ (a.graph.nodeD id).arcs.arcs) (leads : target ∈ arc.targets) :
    a.graph.next? id arc.range.first = some target := by
  obtain ⟨only, targets, _⟩ := single.arcs id arc member
  rw [targets, List.mem_singleton] at leads
  rw [Graph.next?, Graph.targets, Node.targets, leads,
    Arc.targetsAt_of_mem (a.graph.nodeD id).arcs.disjoint member
      (CodeRange.contains_iff.2 ⟨Nat.le_refl _, arc.range.first_le_last⟩), targets]
  rfl

theorem Single.exists_walk (single : a.Single) (reached : a.Reachable id) :
    ∃ word, a.graph.walk a.start word = some id := by
  induction reached with
  | start => exact ⟨[], rfl⟩
  | next _ member leads ih =>
      obtain ⟨word, walk⟩ := ih
      exact ⟨_, (Graph.walk_concat walk _).trans (single.next?_eq member leads)⟩

theorem Reachable.of_walk {n : NodeId} {word : List Nat} (reached : a.Reachable id)
    (walk : a.graph.walk id word = some n) : a.Reachable n := by
  induction word generalizing id with
  | nil =>
      cases walk
      exact reached
  | cons code word ih =>
      obtain ⟨next, step, rest⟩ := Option.bind_eq_some_iff.1 walk
      obtain ⟨arc, member, _, target⟩ := Graph.mem_targets_iff.1 (List.mem_of_head? step)
      exact ih (.next reached member target) rest

theorem Sound.exists_entry (sound : a.Sound) {text : List Char} {m : Match}
    (longest : a.Longest a.start text m) : ∃ h more entry,
      (a.graph.nodeD m.node).handlers = h :: more ∧ a.handlers.entry? h = some entry ∧
        a.preferred m.node = .ok entry := by
  have inside := sound.single.walk_lt sound.single.start longest.walk
  obtain ⟨h, more, handlers⟩ :=
    List.exists_cons_of_ne_nil (Node.isAccepting_iff.1 longest.accepting)
  obtain ⟨entry, registered⟩ := sound.registered m.node (Reachable.start.of_walk longest.walk) h
    (handlers ▸ List.mem_cons_self)
  exact ⟨h, more, entry, handlers, registered, preferred_eq inside handlers registered⟩

end Automaton

theorem Lexer.build_sound {R σ : Type} {l : Lexer R} {a : Automaton R} {x y : Logged σ}
    (built : l.build x = .ok a y) : a.Sound := by
  obtain ⟨start, table, z, states, first, graph, result, rfl⟩ := build_cases built
  obtain ⟨branches, all, entries, spells⟩ := buildGraph_branches graph
  rcases Graph.determinize_determined all.region (.inl rfl) l.maxStates with
    ⟨_, _, meets⟩ | ⟨states', first', determinized, determined⟩
  · rw [result] at meets
    cases meets
  · rw [result] at determinized
    cases determinized
    have single : Automaton.Single { graph := states, start := first, handlers := table } :=
      ⟨determined.inside, determined.single⟩
    refine ⟨single, fun n reached (h : Nat) member => ?_⟩
    -- The handler is that of a rule, whose fragment accepts a word that leads to the node.
    obtain ⟨word, walk⟩ := single.exists_walk reached
    obtain ⟨b, found, _⟩ := (all.handles_iff word h).1 ((determined.handlers word n walk h).1 member)
    obtain ⟨inside, _⟩ := List.getElem?_eq_some_iff.1 found
    have known : h < table.entries.size := by
      rw [← Array.length_toList, entries, List.length_map, spells.length_eq]
      exact inside
    exact ⟨_, Array.getElem?_eq_getElem known⟩

namespace Saved

variable {R : Type} {s : Saved} {table : HandlerTable R} {a : Automaton R} {id : NodeId}

theorem Restores.size_eq (restored : s.Restores table a) : a.graph.size = s.nodes.length := by
  rw [Graph.size, ← Array.length_toList, ← restored.nodes.length_eq]

theorem Restores.exists_node (restored : s.Restores table a)
    (inside : a.graph.HasNode id) :
    ∃ n ∈ s.nodes, n.Restores table (a.graph.nodeD id) := by
  have there : a.graph.nodes.toList[id]? = some (a.graph.nodeD id) := by
    rw [Array.getElem?_toList]
    exact Graph.node?_of_lt inside
  obtain ⟨n, listed, here⟩ := exists_of_forall₂ restored.nodes.flip there
  exact ⟨n, List.mem_of_getElem? listed, here⟩

theorem load_sound (loaded : s.load table = .ok a) : a.Sound := by
  rcases s.load_cases table with ⟨b, loaded', valid, restored⟩ | ⟨e, failed, _⟩
  · cases loaded.symm.trans loaded'
    have single : a.Single := by
      refine ⟨?_, fun id arc member => ?_⟩
      · rw [restored.start, Graph.HasNode, restored.size_eq]
        exact List.length_pos_iff.2 valid.start
      · rcases Nat.lt_or_ge id a.graph.size with inside | beyond
        · obtain ⟨n, listed, here⟩ := restored.exists_node inside
          obtain ⟨edges, perm, each⟩ := here.arcs
          obtain ⟨e, there, restores⟩ := exists_mem_of_forall₂ each.flip member
          refine ⟨e.target, restores.targets, ?_⟩
          rw [Graph.HasNode, restored.size_eq]
          exact ((valid.nodes n listed).edges e (perm.subset there)).target
        · rw [Graph.nodeD_of_size_le beyond] at member
          cases member
    refine ⟨single, fun id reached h member => ?_⟩
    obtain ⟨n, _, here⟩ := restored.exists_node (single.reachable_lt reached)
    rw [restored.handlers]
    exact here.registered member
  · cases failed.symm.trans loaded

end Saved

theorem Automaton.Made.sound {R : Type} {a : Automaton R} (made : a.Made) : a.Sound := by
  cases made with
  | built built => exact Lexer.build_sound built
  | loaded loaded => exact Saved.load_sound loaded

end LongestMatch
