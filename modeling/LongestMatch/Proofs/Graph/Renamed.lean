import LongestMatch.Proofs.Graph.Paths

namespace LongestMatch

variable {image : NodeId → NodeId}

namespace Arc

theorem before?_mapped (image : NodeId → NodeId) (a : Arc) (code : Nat) :
    (a.mapped image).before? code = (a.before? code).map (mapped image) := by
  rw [before?, before?, Option.map_map]
  rfl

theorem after?_mapped (image : NodeId → NodeId) (a : Arc) (code : Nat) :
    (a.mapped image).after? code = (a.after? code).map (mapped image) := by
  rw [after?, after?, Option.map_map]
  rfl

theorem joint_mapped (injective : Function.Injective image) (a b : Arc) (shared : CodeRange) :
    (a.mapped image).joint (b.mapped image) shared = (a.joint b shared).map (mapped image) := by
  have unite : NodeId.unite (a.targets.map image) (b.targets.map image) =
      (NodeId.unite a.targets b.targets).map image :=
    (NodeId.map_unite image fun m _ n _ same => injective same).symm
  have shared_eq : (⟨shared, NodeId.unite (a.mapped image).targets (b.mapped image).targets⟩ : Arc) =
      mapped image ⟨shared, NodeId.unite a.targets b.targets⟩ := congrArg (Arc.mk shared) unite
  rw [joint, joint, before?_mapped, before?_mapped, shared_eq, List.map_append, List.map_append,
    Option.toList_map, Option.toList_map, List.map_singleton]

theorem overlay_mapped (injective : Function.Injective image) (a : Arc) (xs : List Arc) :
    (a.mapped image).overlay (xs.map (mapped image)) = (a.overlay xs).map (mapped image) := by
  induction xs generalizing a with
  | nil => rfl
  | cons x xs ih =>
      rw [List.map_cons, overlay, overlay]
      cases meet : x.range.meet? a.range with
      | none =>
          rw [show (x.mapped image).range.meet? (a.mapped image).range = none from meet]
          by_cases first : a.Before x
          · simp only [if_pos first, if_pos (show (a.mapped image).Before (x.mapped image) from first),
              List.map_cons]
          · simp only [if_neg first,
              if_neg (show ¬ (a.mapped image).Before (x.mapped image) from first), List.map_cons, ih]
      | some shared =>
          rw [show (x.mapped image).range.meet? (a.mapped image).range = some shared from meet]
          simp only [joint_mapped injective, after?_mapped, List.map_append, Option.toList_map]
          cases a.after? shared.last with
          | none => rfl
          | some beyond => simp only [Option.map_some, ih]

end Arc

def ArcSet.mapped (image : NodeId → NodeId) (as : ArcSet) : ArcSet where
  arcs := as.arcs.map (Arc.mapped image)
  disjoint := Arc.pairwise_mapped image as.disjoint

theorem ArcSet.overlay_mapped (injective : Function.Injective image) (as : ArcSet) (a : Arc) :
    (as.mapped image).overlay (a.mapped image) = (as.overlay a).mapped image := by
  simp only [mapped, overlay, Arc.overlay_mapped injective]

def Edge.renamed (image : NodeId → NodeId) (e : Edge) : Edge := e.retarget (e.targets.map image)

namespace Node

def renamed (image : NodeId → NodeId) (n : Node) : Node where
  arcs := n.arcs.mapped image
  epsilon := n.epsilon.map (List.map image)
  handlers := n.handlers

theorem renamed_addEdge (injective : Function.Injective image) (n : Node) (e : Edge) :
    (n.addEdge e).renamed image = (n.renamed image).addEdge (e.renamed image) := by
  cases e with
  | arc a =>
      rw [renamed, addEdge, ← ArcSet.overlay_mapped injective]
      rfl
  | epsilon targets =>
      cases there : n.epsilon with
      | none =>
          simp only [renamed, addEdge, there, Edge.renamed, Edge.retarget, Edge.targets]
          rfl
      | some old =>
          have unite : (NodeId.unite old targets).map image =
              NodeId.unite (old.map image) (targets.map image) :=
            NodeId.map_unite image fun m _ k _ same => injective same
          simp only [renamed, addEdge, there, Edge.renamed, Edge.retarget, Edge.targets,
            Option.map_some, unite]
  | never => rfl

theorem targets_renamed (image : NodeId → NodeId) (n : Node) (label : Option Nat) :
    (n.renamed image).targets label = (n.targets label).map image := by
  cases label with
  | none =>
      rw [targets, targets, epsilonTargets, epsilonTargets, renamed]
      cases n.epsilon <;> rfl
  | some code =>
      rw [targets, targets, renamed, ArcSet.mapped, Arc.targetsAt_mapped]
      cases Arc.targetsAt code n.arcs.arcs <;> rfl

end Node

def Fragment.renamed (image : NodeId → NodeId) (f : Fragment) : Fragment :=
  ⟨image f.entry, image f.exit⟩

namespace Graph

def behind (g : Graph) (p : NodeId) : NodeId := g.size + p

def followedBy (g k : Graph) : Graph := ⟨g.nodes ++ k.nodes.map (Node.renamed g.behind)⟩

theorem behind_injective (g : Graph) : Function.Injective g.behind := fun _ _ => Nat.add_left_cancel

variable (g k : Graph)

theorem size_followedBy : (g.followedBy k).size = g.size + k.size := by
  rw [size, followedBy, Array.size_append, Array.size_map]
  rfl

theorem followedBy_empty : g.followedBy ∅ = g := by
  show Graph.mk (g.nodes ++ (#[] : Array Node).map _) = g
  rw [Array.map_empty, Array.append_empty]

theorem node?_followedBy_of_lt {p : NodeId} (old : g.HasNode p) :
    (g.followedBy k).node? p = g.node? p := Array.getElem?_append_left old

theorem node?_followedBy (p : NodeId) :
    (g.followedBy k).node? (g.behind p) = (k.node? p).map (Node.renamed g.behind) := by
  have beyond : g.nodes.size ≤ g.size + p := Nat.le_add_right _ _
  show (g.nodes ++ k.nodes.map _)[g.size + p]? = _
  rw [Array.getElem?_append_right beyond, Array.getElem?_map]
  show (k.nodes[g.size + p - g.size]?).map _ = _
  rw [Nat.add_sub_cancel_left, node?]

theorem followedBy_push : g.followedBy (k.push {}) = (g.followedBy k).push {} := by
  rw [followedBy, push, push, followedBy, Array.map_push, Array.append_push]
  rfl

theorem followedBy_modify (p : NodeId) {change change' : Node → Node}
    (same : ∀ n, (change n).renamed g.behind = change' (n.renamed g.behind)) :
    g.followedBy (k.modify p change) = (g.followedBy k).modify (g.behind p) change' := by
  have nodes : ∀ n, (g.followedBy (k.modify p change)).node? n =
      ((g.followedBy k).modify (g.behind p) change').node? n := by
    intro n
    have modified : ((g.followedBy k).modify (g.behind p) change').node? n =
        if g.behind p = n then ((g.followedBy k).node? n).map change' else (g.followedBy k).node? n :=
      Array.getElem?_modify
    rw [modified]
    rcases Nat.lt_or_ge n g.size with old | new
    · rw [node?_followedBy_of_lt g _ old, node?_followedBy_of_lt g _ old, if_neg]
      rintro rfl
      exact Nat.not_lt.2 (Nat.le_add_right _ _) old
    · obtain ⟨m, rfl⟩ : ∃ m, n = g.behind m := Nat.exists_eq_add_of_le new
      have change_eq : (k.modify p change).node? m =
          if p = m then (k.node? m).map change else k.node? m := Array.getElem?_modify
      rw [node?_followedBy, node?_followedBy, change_eq]
      by_cases here : p = m
      · subst here
        rw [if_pos rfl, if_pos rfl, Option.map_map, Option.map_map]
        exact congrArg (Option.map · _) (funext same)
      · rw [if_neg here, if_neg fun equal => here (g.behind_injective equal)]
  exact congrArg Graph.mk (Array.ext_getElem? nodes)

theorem nodeD_followedBy_of_lt {p : NodeId} (old : g.HasNode p) :
    (g.followedBy k).nodeD p = g.nodeD p := by
  rw [nodeD, nodeD, node?_followedBy_of_lt g k old]

theorem nodeD_followedBy (p : NodeId) :
    (g.followedBy k).nodeD (g.behind p) = (k.nodeD p).renamed g.behind := by
  rw [nodeD, nodeD, node?_followedBy]
  cases k.node? p <;> rfl

theorem targets_followedBy (p : NodeId) (label : Option Nat) :
    (g.followedBy k).targets (g.behind p) label = (k.targets p label).map g.behind := by
  rw [targets, nodeD_followedBy, Node.targets_renamed, targets]

end Graph

end LongestMatch
