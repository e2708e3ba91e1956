import Mathlib.Computability.Language
import Mathlib.Order.CompletePartialOrder
import LongestMatch.Determinize
import LongestMatch.Event
import LongestMatch.Proofs.Arcs.Partition

/-!
# Paths of a graph

A path reads the code points of its arcs. A fragment has a language: the words read along the paths
from its entry to its exit. Two facts carry all that follows: paths from a set of nodes that no step
leaves are not touched by changes elsewhere (`reads_congr`), and where a graph is only changed by
joining nodes, a path of the new graph is one of the old graph up to the first join (`reads_join`).
-/

namespace LongestMatch

namespace Edge

def passes : Edge → Option Nat → Prop
  | arc a, some code => a.range.contains code
  | epsilon _, none => True
  | _, _ => False

end Edge

namespace Node

def targets (n : Node) : Option Nat → List NodeId
  | none => n.epsilonTargets
  | some code => (Arc.targetsAt code n.arcs.arcs).getD []

theorem mem_targets_addEdge (n : Node) (e : Edge) (label : Option Nat) (q : NodeId) :
    q ∈ (n.addEdge e).targets label ↔ q ∈ n.targets label ∨ e.passes label ∧ q ∈ e.targets := by
  cases label with
  | none =>
      cases e with
      | arc a => simp [targets, addEdge, Edge.passes, epsilonTargets]
      | epsilon targets' =>
          simp only [targets, addEdge, Edge.passes, epsilonTargets, Edge.targets, true_and,
            Option.getD_some]
          cases n.epsilon with
          | none => simp
          | some there => simp [NodeId.mem_unite]
      | never => simp [addEdge, Edge.passes]
  | some code =>
      cases e with
      | arc a =>
          simp only [targets, addEdge, Edge.passes, Edge.targets, ArcSet.overlay]
          rw [Arc.targetsAt_overlay a n.arcs.disjoint code]
          split
          · cases Arc.targetsAt code n.arcs.arcs with
            | none => simp [*]
            | some there => simp [NodeId.mem_unite, *]
          · simp [*]
      | epsilon targets' => simp [targets, addEdge, Edge.passes]
      | never => simp [addEdge, Edge.passes]

end Node

namespace Graph

def targets (g : Graph) (p : NodeId) (label : Option Nat) : List NodeId :=
  (g.nodeD p).targets label

theorem mem_targets_iff {g : Graph} {p q : NodeId} {code : Nat} : q ∈ g.targets p (some code) ↔
    ∃ a ∈ (g.nodeD p).arcs.arcs, a.range.contains code ∧ q ∈ a.targets := by
  rw [targets, Node.targets]
  constructor
  · intro member
    cases found : Arc.targetsAt code (g.nodeD p).arcs.arcs with
    | none => simp [found] at member
    | some targets =>
        obtain ⟨a, first, rfl⟩ := Option.map_eq_some_iff.1 found
        have reads := List.find?_some first
        rw [found] at member
        exact ⟨a, List.mem_of_find?_eq_some first, reads, member⟩
  · rintro ⟨a, member, reads, target⟩
    rw [Arc.targetsAt_of_mem (g.nodeD p).arcs.disjoint member reads]
    exact target

inductive Reads (g : Graph) : NodeId → List Nat → NodeId → Prop
  | stay (p : NodeId) : Reads g p [] p
  | step {p q r : NodeId} {label : Option Nat} {word : List Nat} :
      q ∈ g.targets p label → Reads g q word r → Reads g p (label.toList ++ word) r

def Closed (g : Graph) (nodes : Set NodeId) : Prop :=
  ∀ p ∈ nodes, ∀ label, ∀ q ∈ g.targets p label, q ∈ nodes

variable {g h : Graph} {nodes : Set NodeId} {p q r : NodeId} {u v word : List Nat}

theorem Reads.silent (next : q ∈ g.targets p none) (path : g.Reads q word r) : g.Reads p word r :=
  .step next path

theorem Reads.trans (first : g.Reads p u q) (second : g.Reads q v r) : g.Reads p (u ++ v) r := by
  induction first with
  | stay p => exact second
  | step next _ ih =>
      rw [List.append_assoc]
      exact .step next (ih second)

theorem Reads.mono (more : ∀ p label q, q ∈ g.targets p label → q ∈ h.targets p label)
    (path : g.Reads p word q) : h.Reads p word q := by
  induction path with
  | stay p => exact .stay p
  | step next _ ih => exact .step (more _ _ _ next) ih

theorem Reads.mem (closed : g.Closed nodes) (member : p ∈ nodes) (path : g.Reads p word q) :
    q ∈ nodes := by
  induction path with
  | stay p => exact member
  | step next _ ih => exact ih (closed _ member _ _ next)

theorem closed_of_edges
    (inside : ∀ n ∈ nodes, ∀ e ∈ (g.nodeD n).edges, ∀ q ∈ e.targets, q ∈ nodes) : g.Closed nodes := by
  intro p member label q next
  cases label with
  | none =>
      cases epsilon : (g.nodeD p).epsilon with
      | none => simp [targets, Node.targets, Node.epsilonTargets, epsilon] at next
      | some there =>
          refine inside p member (.epsilon there) (by simp [Node.edges, epsilon]) q ?_
          show q ∈ there
          simpa [targets, Node.targets, Node.epsilonTargets, epsilon] using next
  | some code =>
      obtain ⟨arc, stored, _, target⟩ := mem_targets_iff.1 next
      exact inside p member (.arc arc) (by simp [Node.edges, stored]) q target

theorem reads_congr (closed : g.Closed nodes)
    (agree : ∀ p ∈ nodes, ∀ label q, q ∈ h.targets p label ↔ q ∈ g.targets p label)
    (member : p ∈ nodes) : h.Reads p word q ↔ g.Reads p word q := by
  constructor
  · intro path
    induction path with
    | stay p => exact .stay p
    | step next _ ih =>
        have old := (agree _ member _ _).1 next
        exact .step old (ih (closed _ member _ _ old))
  · intro path
    induction path with
    | stay p => exact .stay p
    | step next _ ih => exact .step ((agree _ member _ _).2 next) (ih (closed _ member _ _ next))

theorem reads_iff : g.Reads p word r ↔ word = [] ∧ r = p ∨
    ∃ label q rest, word = label.toList ++ rest ∧ q ∈ g.targets p label ∧ g.Reads q rest r := by
  constructor
  · intro path
    cases path with
    | stay => exact .inl ⟨rfl, rfl⟩
    | step next rest => exact .inr ⟨_, _, _, rfl, next, rest⟩
  · rintro (⟨rfl, rfl⟩ | ⟨label, q, rest, rfl, next, path⟩)
    · exact .stay _
    · exact .step next path

theorem reads_of_targets_eq_nil (dead : ∀ label, g.targets p label = []) :
    g.Reads p word q ↔ word = [] ∧ q = p := by
  rw [reads_iff, or_iff_left]
  rintro ⟨label, q, rest, _, next, _⟩
  rw [dead] at next
  cases next

/-- The second graph has the steps of the first one and joins some nodes to others by steps without
a label. -/
def JoinsBy (g : Graph) (joins : NodeId → NodeId → Prop) (h : Graph) : Prop :=
  ∀ p label q, q ∈ h.targets p label ↔ q ∈ g.targets p label ∨ label = none ∧ joins p q

variable {joins : NodeId → NodeId → Prop}

theorem JoinsBy.refl (g : Graph) : g.JoinsBy (fun _ _ => False) g := fun p label q => by simp

theorem JoinsBy.congr {joins' : NodeId → NodeId → Prop} (joined : g.JoinsBy joins h)
    (same : ∀ x y, joins x y ↔ joins' x y) : g.JoinsBy joins' h := by
  intro p label q
  rw [joined p label q, same]

theorem JoinsBy.mono (joined : g.JoinsBy joins h) (path : g.Reads p word q) : h.Reads p word q :=
  path.mono fun p label q next => (joined p label q).2 (.inl next)

theorem JoinsBy.silent (joined : g.JoinsBy joins h) (join : joins p q) (path : h.Reads q word r) :
    h.Reads p word r := path.silent ((joined p none q).2 (.inr ⟨rfl, join⟩))

theorem reads_join (joined : g.JoinsBy joins h) :
    h.Reads p word r ↔ g.Reads p word r ∨
      ∃ u v x y, word = u ++ v ∧ g.Reads p u x ∧ joins x y ∧ h.Reads y v r := by
  constructor
  · intro path
    induction path with
    | stay p => exact .inl (.stay p)
    | @step p q r label word next path ih =>
        rcases (joined _ _ _).1 next with old | ⟨rfl, join⟩
        · rcases ih with ih | ⟨u, v, x, y, rfl, ih, join, rest⟩
          · exact .inl (.step old ih)
          · exact .inr ⟨label.toList ++ u, v, x, y, (List.append_assoc ..).symm, .step old ih, join,
              rest⟩
        · exact .inr ⟨[], word, p, q, rfl, .stay p, join, path⟩
  · rintro (path | ⟨u, v, x, y, rfl, path, join, rest⟩)
    · exact joined.mono path
    · exact (joined.mono path).trans (joined.silent join rest)

theorem node?_of_lt (inside : g.HasNode p) : g.node? p = some (g.nodeD p) := by
  rw [nodeD, node?, Array.getElem?_eq_getElem inside, Option.getD_some]

theorem nodeD_push_of_lt {n : Node} (old : p < g.size) : (g.push n).nodeD p = g.nodeD p := by
  rw [nodeD, nodeD, node?, node?, push, Array.getElem?_push_lt old, Array.getElem?_eq_getElem old]

theorem nodeD_push_size (g : Graph) (n : Node) : (g.push n).nodeD g.size = n := by
  simp [nodeD, node?, push, size]

theorem nodeD_of_size_le (beyond : g.size ≤ p) : g.nodeD p = {} := by
  rw [nodeD, node?, Array.getElem?_eq_none beyond]
  rfl

theorem forall_nodeD (holds : Node → Prop) (empty : holds {})
    (each : ∀ n ∈ g.nodes.toList, holds n) (id : NodeId) : holds (g.nodeD id) := by
  rcases Nat.lt_or_ge id g.size with inside | beyond
  · obtain ⟨n, here⟩ : ∃ n, g.nodes[id]? = some n := ⟨_, Array.getElem?_eq_getElem inside⟩
    rw [nodeD, node?, here, Option.getD_some]
    exact each n (Array.mem_toList_iff.2 (Array.mem_of_getElem? here))
  · rwa [nodeD_of_size_le beyond]

@[simp]
theorem size_push (g : Graph) (n : Node) : (g.push n).size = g.size + 1 := Array.size_push ..

@[simp]
theorem size_modify (g : Graph) (p : NodeId) (change : Node → Node) :
    (g.modify p change).size = g.size := Array.size_modify ..

theorem nodeD_modify_of_ne (change : Node → Node) (other : q ≠ p) :
    (g.modify p change).nodeD q = g.nodeD q := by
  rw [nodeD, nodeD, node?, node?, modify, Array.getElem?_modify, if_neg (Ne.symm other)]

theorem nodeD_modify_self (change : Node → Node) (inside : p < g.size) :
    (g.modify p change).nodeD p = change (g.nodeD p) := by
  rw [nodeD, nodeD, node?, node?, modify, Array.getElem?_modify, if_pos rfl,
    Array.getElem?_eq_getElem inside]
  rfl

theorem modify_nodeD (g : Graph) (p : NodeId) : g.modify p (fun _ => g.nodeD p) = g := by
  have nodes : g.nodes.modify p (fun _ => g.nodeD p) = g.nodes := by
    refine Array.ext_getElem? fun i => ?_
    rw [Array.getElem?_modify]
    split
    · rename_i same
      subst same
      rw [nodeD, node?]
      cases g.nodes[p]? <;> rfl
    · rfl
  rw [modify, nodes]

theorem nodeD_push_empty (g : Graph) (p : NodeId) : (g.push {}).nodeD p = g.nodeD p := by
  rcases Nat.lt_trichotomy p g.size with old | rfl | beyond
  · rw [nodeD_push_of_lt old]
  · rw [nodeD_push_size, nodeD_of_size_le (Nat.le_refl _)]
  · rw [nodeD_of_size_le (Nat.le_of_lt beyond), nodeD_of_size_le]
    rwa [size_push]

theorem targets_of_size_le (beyond : g.size ≤ p) (label : Option Nat) : g.targets p label = [] := by
  rw [targets, nodeD_of_size_le beyond]
  cases label <;> rfl

theorem mem_targets_addEdge (inside : p < g.size) (e : Edge) (x : NodeId) (label : Option Nat)
    (q : NodeId) : q ∈ (g.modify p (·.addEdge e)).targets x label ↔
      q ∈ g.targets x label ∨ x = p ∧ e.passes label ∧ q ∈ e.targets := by
  by_cases same : x = p
  · subst same
    rw [targets, nodeD_modify_self _ inside, Node.mem_targets_addEdge, targets, and_iff_right rfl]
  · simp [targets, nodeD_modify_of_ne _ same, same]

theorem JoinsBy.addEdge (joined : g.JoinsBy joins h) (inside : p < h.size) (next : List NodeId) :
    g.JoinsBy (fun x y => joins x y ∨ x = p ∧ y ∈ next)
      (h.modify p (·.addEdge (.epsilon next))) := by
  intro x label y
  rw [mem_targets_addEdge inside, joined x label y]
  cases label with
  | none => simp [Edge.passes, Edge.targets, or_assoc]
  | some code => simp [Edge.passes]

theorem JoinsBy.push (joined : g.JoinsBy joins h) : g.JoinsBy joins (h.push {}) := by
  intro x label y
  rw [targets, nodeD_push_empty, ← targets, joined x label y]

structure Extends (g : Graph) (nodes : Set NodeId) (joins : NodeId → NodeId → Prop) (h : Graph) :
    Prop where
  size_le : g.size ≤ h.size
  steps : g.JoinsBy joins h
  kept : ∀ n < g.size, n ∉ nodes → h.nodeD n = g.nodeD n
  handlers : ∀ n, (h.nodeD n).handlers = (g.nodeD n).handlers

theorem Extends.refl (g : Graph) (nodes : Set NodeId) : g.Extends nodes (fun _ _ => False) g :=
  ⟨Nat.le_refl _, .refl g, fun _ _ _ => rfl, fun _ => rfl⟩

theorem Extends.mono {nodes' : Set NodeId} (extended : g.Extends nodes joins h)
    (subset : nodes ⊆ nodes') : g.Extends nodes' joins h :=
  ⟨extended.size_le, extended.steps, fun n old outside => extended.kept n old fun member =>
    outside (subset member), extended.handlers⟩

theorem Extends.congr {joins' : NodeId → NodeId → Prop} (extended : g.Extends nodes joins h)
    (same : ∀ x y, joins x y ↔ joins' x y) : g.Extends nodes joins' h :=
  ⟨extended.size_le, extended.steps.congr same, extended.kept, extended.handlers⟩

theorem Extends.push (extended : g.Extends nodes joins h) : g.Extends nodes joins (h.push {}) where
  size_le := by
    have := extended.size_le
    rw [size_push]
    omega
  steps := extended.steps.push
  kept n old outside := by rw [nodeD_push_empty, extended.kept n old outside]
  handlers n := by rw [nodeD_push_empty, extended.handlers n]

theorem Extends.addEdge (extended : g.Extends nodes joins h) (inside : p < h.size)
    (owned : p ∈ nodes ∨ g.size ≤ p) (next : List NodeId) :
    g.Extends nodes (fun x y => joins x y ∨ x = p ∧ y ∈ next)
      (h.modify p (·.addEdge (.epsilon next))) where
  size_le := by
    rw [size_modify]
    exact extended.size_le
  steps := extended.steps.addEdge inside next
  kept n old outside := by
    have other : n ≠ p := by
      rintro rfl
      exact owned.elim outside (Nat.not_le.2 old)
    rw [nodeD_modify_of_ne _ other, extended.kept n old outside]
  handlers n := by
    rw [← extended.handlers n]
    by_cases same : n = p
    · rw [same, nodeD_modify_self _ inside]
      rfl
    · rw [nodeD_modify_of_ne _ same]

end Graph

def Fragment.language (g : Graph) (f : Fragment) : Language Nat :=
  {word | g.Reads f.entry word f.exit}

theorem Fragment.mem_language {g : Graph} {f : Fragment} {word : List Nat} :
    word ∈ f.language g ↔ g.Reads f.entry word f.exit := Iff.rfl

end LongestMatch
