import LongestMatch.Fragment.Combine
import LongestMatch.Proofs.Graph.Paths

namespace LongestMatch.Build

variable {α β : Type} {g g' g'' : Graph}

def Yields (work : Build α) (g : Graph) (a : α) (g' : Graph) : Prop :=
  ∀ log, ∃ log', work ⟨g, log⟩ = .ok a ⟨g', log'⟩

theorem yields_pure (a : α) (g : Graph) : Yields (pure a) g a g := fun log => ⟨log, rfl⟩

theorem Yields.bind {work : Build α} {next : α → Build β} {a : α} {b : β}
    (first : Yields work g a g') (second : Yields (next a) g' b g'') :
    Yields (work >>= next) g b g'' := by
  intro log
  obtain ⟨log', first⟩ := first log
  obtain ⟨log'', second⟩ := second log'
  refine ⟨log'', ?_⟩
  show EStateM.bind work next _ = _
  rw [EStateM.bind, first]
  exact second

theorem Yields.eq_of_ok {work : Build α} {a b : α} {x y : Logged Graph} (yields : Yields work x.state a g)
    (result : work x = .ok b y) : b = a ∧ y.state = g := by
  obtain ⟨log, expected⟩ := yields x.log
  rw [result] at expected
  cases expected
  exact ⟨rfl, rfl⟩

theorem ofExcept_eq_ok {σ : Type} {result : Except Failure α} {x y : Logged σ} {a : α} :
    (ofExcept result : Recorded σ α) x = .ok a y ↔ result = .ok a ∧ y = x := by
  cases result with
  | ok b =>
      show EStateM.Result.ok b x = _ ↔ _
      simp [eq_comm]
  | error e =>
      show EStateM.Result.error e x = _ ↔ _
      simp

def succeeds {ε σ : Type} : EStateM.Result ε σ α → Bool
  | .ok _ _ => true
  | .error _ _ => false

theorem exists_of_succeeds {ε σ : Type} {result : EStateM.Result ε σ α}
    (success : succeeds result = true) : ∃ a x, result = .ok a x := by
  cases result with
  | ok a x => exact ⟨a, x, rfl⟩
  | error e x => cases success

theorem yields_current (g : Graph) : Yields Recorded.current g g g := fun log => ⟨log, rfl⟩

theorem yields_record (e : Event) (g : Graph) : Yields (Recorded.record e) g () g := fun log =>
  ⟨log.push e, rfl⟩

theorem yields_alloc (g : Graph) : Yields alloc g g.size (g.push {}) := fun log => ⟨log, rfl⟩

theorem yields_node {id : NodeId} (inside : id < g.size) : Yields (node id) g (g.nodeD id) g := by
  refine (yields_current g).bind ?_
  have found := Graph.node?_of_lt inside
  rw [found]
  exact yields_pure _ _

theorem yields_modifyNode {id : NodeId} (inside : id < g.size) (change : Node → Node) :
    Yields (modifyNode id change) g () (g.modify id change) :=
  (yields_node inside).bind fun log => ⟨log, rfl⟩

theorem yields_addEdge {id : NodeId} (inside : id < g.size) (e : Edge) :
    Yields (addEdge id e) g () (g.modify id (·.addEdge e)) := yields_modifyNode inside _

theorem yields_addHandler {id : NodeId} (inside : id < g.size) (h : HandlerId) :
    Yields (addHandler id h) g () (g.modify id (·.addHandler h)) := yields_modifyNode inside _

theorem yields_range {first last : Nat} (ordered : first ≤ last) (bounded : last ≤ maxCode)
    (g : Graph) : Yields (range first last) g ⟨first, last, ordered, bounded⟩ g := by
  intro log
  refine ⟨log, ?_⟩
  rw [range, CodeRange.ofBounds, CodeRange.ofBounds?, dif_pos ⟨ordered, bounded⟩]
  rfl

theorem yields_fresh (g : Graph) :
    Yields Fragment.fresh g ⟨g.size, g.size + 1⟩ ((g.push {}).push {}) :=
  (yields_alloc g).bind ((yields_alloc _).bind (by
    rw [Graph.size_push]
    exact yields_pure _ _))

end LongestMatch.Build
