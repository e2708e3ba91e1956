import LongestMatch.Automaton.Session
import LongestMatch.Proofs.Graph.Paths

namespace LongestMatch

theorem Node.isAccepting_iff {n : Node} : n.isAccepting ↔ n.handlers ≠ [] := by simp [isAccepting]

namespace Graph

def next? (g : Graph) (id : NodeId) (code : Nat) : Option NodeId :=
  (g.targets id (some code)).head?

def walk (g : Graph) (id : NodeId) : List Nat → Option NodeId
  | [] => some id
  | code :: word => (g.next? id code).bind fun next => g.walk next word

def Accepts (g : Graph) (id : NodeId) (word : List Nat) : Prop :=
  ∃ n, g.walk id word = some n ∧ (g.nodeD n).isAccepting

def Single (g : Graph) : Prop :=
  ∀ id, ∀ arc ∈ (g.nodeD id).arcs.arcs, ∃ target, arc.targets = [target] ∧ g.HasNode target

theorem le_of_walk {g : Graph} {id n : NodeId} {word : List Nat} (walk : g.walk id word = some n) :
    ∀ code ∈ word, code ≤ maxCode := by
  induction word generalizing id with
  | nil =>
      intro code member
      cases member
  | cons code word ih =>
      obtain ⟨next, step, rest⟩ := Option.bind_eq_some_iff.1 walk
      obtain ⟨arc, _, reads, _⟩ := mem_targets_iff.1 (List.mem_of_head? step)
      intro code' member
      rcases List.mem_cons.1 member with rfl | member
      · exact Arc.le_of_contains reads
      · exact ih rest code' member

end Graph

def codes (text : List Char) : List Nat := text.map Char.toNat

@[simp]
theorem codes_nil : codes [] = [] := rfl

@[simp]
theorem codes_cons (c : Char) (cs : List Char) : codes (c :: cs) = c.toNat :: codes cs := rfl

namespace Automaton

variable {R : Type} {a : Automaton R} {id n : NodeId} {c : Char} {cs text : List Char}

structure Single (a : Automaton R) : Prop where
  start : a.graph.HasNode a.start
  arcs : a.graph.Single

theorem Single.of_nodes (start : a.graph.HasNode a.start)
    (arcs : ∀ n ∈ a.graph.nodes.toList, ∀ arc ∈ n.arcs.arcs,
      ∃ target, arc.targets = [target] ∧ a.graph.HasNode target) : a.Single where
  start := start
  arcs := Graph.forall_nodeD
    (fun n => ∀ arc ∈ n.arcs.arcs, ∃ target, arc.targets = [target] ∧
      a.graph.HasNode target)
    (fun _ member => (List.not_mem_nil member).elim) arcs

theorem node_eq (inside : a.graph.HasNode id) : a.node id = .ok (a.graph.nodeD id) := by
  rw [node, Graph.node?_of_lt inside]

theorem registered_eq {h : HandlerId} {entry : String × (String → R)}
    (there : a.handlers.entry? h = some entry) : a.registered h = .ok entry := by
  rw [registered, there]

theorem preferred_eq {h : HandlerId} {more : List HandlerId} {entry : String × (String → R)}
    (inside : a.graph.HasNode id) (handlers : (a.graph.nodeD id).handlers = h :: more)
    (there : a.handlers.entry? h = some entry) : a.preferred id = .ok entry := by
  rw [preferred, node_eq inside]
  simp only [bind, Except.bind, handlers, registered_eq there]

theorem Single.step_eq (single : a.Single) (inside : a.graph.HasNode id) (c : Char) :
    a.step id c = .ok (a.graph.next? id c.toNat) := by
  rw [step, Graph.next?, Graph.targets, Node.targets, Arc.targetsAt]
  split
  · rename_i beyond
    have none : (a.graph.nodeD id).arcs.arcs.find? (·.range.contains c.toNat) = none := by
      apply List.find?_eq_none.2
      intro arc member reads
      exact Nat.not_lt.2 (Arc.le_of_contains reads) beyond
    rw [none]
    rfl
  · rw [node_eq inside]
    simp only [bind, Except.bind, ArcSet.find?]
    cases found : (a.graph.nodeD id).arcs.arcs.find? (·.range.contains c.toNat) with
    | none => rfl
    | some arc =>
        obtain ⟨target, only, _⟩ := single.arcs id arc (List.mem_of_find?_eq_some found)
        obtain ⟨range, targets⟩ := arc
        cases only
        rfl

theorem Single.next_lt (single : a.Single) {code : Nat} (next : a.graph.next? id code = some n) :
    a.graph.HasNode n := by
  obtain ⟨arc, member, _, target⟩ := Graph.mem_targets_iff.1 (List.mem_of_head? next)
  obtain ⟨only, targets, inside⟩ := single.arcs id arc member
  rw [targets, List.mem_singleton] at target
  exact target ▸ inside

theorem Single.walk_lt (single : a.Single) (inside : a.graph.HasNode id)
    {word : List Nat} (walk : a.graph.walk id word = some n) : a.graph.HasNode n := by
  induction word generalizing id with
  | nil =>
      cases walk
      exact inside
  | cons code word ih =>
      obtain ⟨next, step, rest⟩ := Option.bind_eq_some_iff.1 walk
      exact ih (single.next_lt step) rest

theorem Single.matchesFrom_eq (single : a.Single) (inside : a.graph.HasNode id)
    (text : List Char) : ∃ yes, a.matchesFrom id text = .ok yes ∧
      (yes = true ↔ a.graph.Accepts id (codes text)) := by
  induction text generalizing id with
  | nil =>
      rw [matchesFrom, node_eq inside]
      refine ⟨_, rfl, ?_⟩
      simp [Graph.Accepts, Graph.walk]
  | cons c cs ih =>
      rw [matchesFrom, single.step_eq inside]
      simp only [Graph.Accepts, codes_cons, Graph.walk]
      cases next : a.graph.next? id c.toNat with
      | none => exact ⟨false, rfl, by simp⟩
      | some n => exact ih (single.next_lt next)

structure Longest (a : Automaton R) (id : NodeId) (text : List Char) (m : Match) : Prop where
  positive : 0 < m.length
  length_le : m.length ≤ text.length
  walk : a.graph.walk id (codes (text.take m.length)) = some m.node
  accepting : (a.graph.nodeD m.node).isAccepting
  longest : ∀ k, m.length < k → k ≤ text.length → ¬ a.graph.Accepts id (codes (text.take k))

def Unmatched (a : Automaton R) (id : NodeId) (text : List Char) : Prop :=
  ∀ k, 0 < k → k ≤ text.length → ¬ a.graph.Accepts id (codes (text.take k))

theorem accepts_cons (next : a.graph.next? id c.toNat = some n) :
    a.graph.Accepts id (codes (c :: cs)) ↔ a.graph.Accepts n (codes cs) := by
  rw [Graph.Accepts, codes_cons, Graph.walk, next]
  rfl

theorem unmatched_of_next?_eq_none (stuck : a.graph.next? id c.toNat = none) : a.Unmatched id (c :: cs) := by
  rintro (_ | k) positive _ ⟨n, walk, _⟩
  · cases positive
  · rw [List.take_succ_cons, codes_cons, Graph.walk, stuck] at walk
    cases walk

theorem Longest.cons (next : a.graph.next? id c.toNat = some n) {m : Match} (longest : a.Longest n cs m) :
    a.Longest id (c :: cs) ⟨m.length + 1, m.node⟩ where
  positive := Nat.succ_pos _
  length_le := Nat.succ_le_succ longest.length_le
  walk := by
    rw [List.take_succ_cons, codes_cons, Graph.walk, next]
    exact longest.walk
  accepting := longest.accepting
  longest k longer le := by
    obtain ⟨k, rfl⟩ := Nat.exists_eq_succ_of_ne_zero (Nat.ne_zero_of_lt longer)
    rw [List.take_succ_cons, accepts_cons next]
    exact longest.longest k (Nat.lt_of_succ_lt_succ longer) (Nat.le_of_succ_le_succ le)

theorem Unmatched.longest (next : a.graph.next? id c.toNat = some n) (rest : a.Unmatched n cs)
    (accepting : (a.graph.nodeD n).isAccepting) : a.Longest id (c :: cs) ⟨1, n⟩ where
  positive := Nat.succ_pos _
  length_le := Nat.succ_le_succ (Nat.zero_le _)
  walk := by
    rw [List.take_succ_cons, codes_cons, Graph.walk, next]
    rfl
  accepting := accepting
  longest k longer le := by
    obtain ⟨k, rfl⟩ := Nat.exists_eq_succ_of_ne_zero (Nat.ne_zero_of_lt longer)
    rw [List.take_succ_cons, accepts_cons next]
    exact rest k (Nat.lt_of_succ_lt_succ longer) (Nat.le_of_succ_le_succ le)

theorem Unmatched.cons (next : a.graph.next? id c.toNat = some n) (rest : a.Unmatched n cs)
    (rejecting : ¬ (a.graph.nodeD n).isAccepting) : a.Unmatched id (c :: cs) := by
  rintro (_ | _ | k) positive le
  · cases positive
  · rw [List.take_succ_cons, accepts_cons next]
    rintro ⟨n, walk, accepting⟩
    cases walk
    exact rejecting accepting
  · rw [List.take_succ_cons, accepts_cons next]
    exact rest _ (Nat.succ_pos k) (Nat.le_of_succ_le_succ le)

theorem Single.longestFrom_eq (single : a.Single) (inside : a.graph.HasNode id)
    (length : Nat) (best : Option Match) (text : List Char) :
    ∃ found, a.longestFrom id length best text = .ok found ∧
      ((∃ m, a.Longest id text m ∧ found = some ⟨length + m.length, m.node⟩) ∨
        a.Unmatched id text ∧ found = best) := by
  induction text generalizing id length best with
  | nil =>
      refine ⟨best, rfl, .inr ⟨fun k positive le => ?_, rfl⟩⟩
      exact (Nat.not_lt.2 le positive).elim
  | cons c cs ih =>
      rw [longestFrom, single.step_eq inside]
      cases next : a.graph.next? id c.toNat with
      | none => exact ⟨best, rfl, .inr ⟨unmatched_of_next?_eq_none next, rfl⟩⟩
      | some n =>
          have inside' := single.next_lt next
          simp only [bind, Except.bind, node_eq inside']
          obtain ⟨found, result, cases_⟩ := ih inside' (length + 1)
            (if (a.graph.nodeD n).isAccepting then some ⟨length + 1, n⟩ else best)
          refine ⟨found, result, ?_⟩
          rcases cases_ with ⟨m, longest, rfl⟩ | ⟨rest, rfl⟩
          · exact .inl ⟨_, longest.cons next, by rw [Nat.add_assoc, Nat.add_comm 1]⟩
          · split
            · rename_i accepting
              exact .inl ⟨_, rest.longest next accepting, rfl⟩
            · rename_i rejecting
              exact .inr ⟨rest.cons next rejecting, rfl⟩

theorem Single.longest_eq (single : a.Single) (text : List Char) :
    ∃ found, a.longest text = .ok found ∧
      ((∃ m, a.Longest a.start text m ∧ found = some m) ∨
        a.Unmatched a.start text ∧ found = none) := by
  obtain ⟨found, result, cases_⟩ := single.longestFrom_eq single.start 0 none text
  refine ⟨found, result, cases_.imp ?_ id⟩
  rintro ⟨m, longest, rfl⟩
  exact ⟨m, longest, by rw [Nat.zero_add]⟩

end Automaton

end LongestMatch
