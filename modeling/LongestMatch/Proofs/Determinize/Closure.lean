import LongestMatch.Proofs.Ascending
import LongestMatch.Proofs.Graph.Paths

/-!
# The closure of some nodes

The search finds the nodes to which a path from one of the given nodes leads that reads nothing. It
stops because every node is pending at most once: the pending nodes and the nodes not found yet
together become fewer with every node whose edges are followed. What is found depends on nothing but
which nodes can be reached (`closure_canonical`).
-/

namespace LongestMatch.Graph

def reach (g : Graph) (start : Set NodeId) (word : List Nat) : Set NodeId :=
  {q | ∃ p ∈ start, g.Reads p word q}

structure Region (g : Graph) (nodes : Set NodeId) : Prop where
  closed : g.Closed nodes
  inside : ∀ n ∈ nodes, g.HasNode n

variable {g : Graph} {nodes : Set NodeId} {start : Set NodeId} {n p q : NodeId}

def Silent (g : Graph) (nodes : Set NodeId) : Prop := ∀ p ∈ nodes, ∀ q ∈ g.targets p none, q ∈ nodes

theorem Silent.mem (silent : g.Silent nodes) (member : p ∈ nodes) (path : g.Reads p [] q) :
    q ∈ nodes := by
  generalize empty : ([] : List Nat) = word at path
  induction path with
  | stay p => exact member
  | @step p q r label word next _ ih =>
      obtain ⟨none, rest⟩ := List.nil_eq_append_iff.1 empty
      cases label with
      | none => exact ih (silent p member q next) rest.symm
      | some code => cases none

theorem silent_reach (g : Graph) (start : Set NodeId) : g.Silent (g.reach start []) := by
  rintro p ⟨first, member, path⟩ q next
  exact ⟨first, member, path.trans (.silent next (.stay q))⟩

theorem Region.reach_subset (region : g.Region nodes) (subset : start ⊆ nodes) (word : List Nat) :
    g.reach start word ⊆ nodes := by
  rintro q ⟨p, member, path⟩
  exact path.mem region.closed (subset member)

namespace Search

def Has (s : Search) (n : NodeId) : Prop := s.found.getD n false = true

def missing (s : Search) : Nat := s.found.count false

variable {s : Search} {m : NodeId} {nodes : List NodeId}

theorem visit_of_has (found : s.Has n) : s.visit n = s := if_pos found

theorem visit_of_new (new : ¬ s.Has n) :
    s.visit n = ⟨s.found.setIfInBounds n true, n :: s.pending⟩ := if_neg new

theorem size_visit (s : Search) (n : NodeId) : (s.visit n).found.size = s.found.size := by
  by_cases found : s.Has n
  · rw [visit_of_has found]
  · rw [visit_of_new found, Array.size_setIfInBounds]

theorem has_visit {n : Nat} (inside : n < s.found.size) : (s.visit n).Has m ↔ s.Has m ∨ m = n := by
  by_cases found : s.Has n
  · rw [visit_of_has found]
    exact ⟨.inl, fun has => has.elim id fun same => same ▸ found⟩
  · rw [visit_of_new found]
    simp only [Has, Array.getD_eq_getD_getElem?, Array.getElem?_setIfInBounds]
    by_cases same : n = m
    · subst same
      simp [inside]
    · simp [same, Ne.symm same]

theorem mem_pending_visit (s : Search) (n : NodeId) :
    m ∈ (s.visit n).pending ↔ m ∈ s.pending ∨ m = n ∧ ¬ s.Has n := by
  by_cases found : s.Has n
  · simp [visit_of_has found, found]
  · simp [visit_of_new found, found, or_comm]

theorem missing_visit {n : Nat} (inside : n < s.found.size) :
    (s.visit n).pending.length + (s.visit n).missing = s.pending.length + s.missing := by
  by_cases found : s.Has n
  · rw [visit_of_has found]
  · have unmarked : s.found[n] = false := by
      simpa [Has, Array.getD_eq_getD_getElem?, inside] using found
    have some : 0 < s.missing := Array.count_pos_iff.2 (unmarked ▸ Array.getElem_mem inside)
    rw [visit_of_new found, missing, missing, Array.setIfInBounds, dif_pos inside, Array.count_set]
    rw [missing] at some
    simp only [List.length_cons, unmarked, beq_self_eq_true, if_true]
    rw [if_neg (by decide)]
    omega

theorem foldl_visit {nodes : List Nat} (inside : ∀ n ∈ nodes, n < s.found.size) :
    (nodes.foldl visit s).found.size = s.found.size ∧
      (∀ m, (nodes.foldl visit s).Has m ↔ s.Has m ∨ m ∈ nodes) ∧
        (∀ m, m ∈ (nodes.foldl visit s).pending ↔ m ∈ s.pending ∨ m ∈ nodes ∧ ¬ s.Has m) ∧
          (nodes.foldl visit s).pending.length + (nodes.foldl visit s).missing =
            s.pending.length + s.missing := by
  induction nodes generalizing s with
  | nil => simp
  | cons n nodes ih =>
      have head := inside n List.mem_cons_self
      obtain ⟨size, has, pending, count⟩ := ih (s := s.visit n) fun m member => by
        rw [size_visit]
        exact inside m (List.mem_cons_of_mem _ member)
      rw [List.foldl_cons]
      refine ⟨size.trans (size_visit s n), fun m => ?_, fun m => ?_, count.trans (missing_visit head)⟩
      · rw [has, has_visit head, List.mem_cons, or_assoc]
      · rw [pending, mem_pending_visit, has_visit head, List.mem_cons]
        by_cases same : m = n
        · subst same
          simp
        · simp [same]

theorem Has.lt_size {n : Nat} (has : s.Has n) : n < s.found.size := by
  by_contra beyond
  simp [Has, Array.getD_eq_getD_getElem?, Array.getElem?_eq_none (Nat.not_lt.1 beyond)] at has

/-- What has been found can be reached, and leads on only to what has been found, except from nodes
that are pending. -/
structure Explores (g : Graph) (start : Set NodeId) (s : Search) : Prop where
  size : s.found.size = g.size
  starts : ∀ p ∈ start, s.Has p
  reached : ∀ n, s.Has n → n ∈ g.reach start []
  found : ∀ n ∈ s.pending, s.Has n
  followed : ∀ n, s.Has n → n ∈ s.pending ∨ ∀ q ∈ g.targets n none, s.Has q

theorem Explores.follow {pending : List NodeId} (explores : s.Explores g start)
    (inside : ∀ n ∈ g.reach start [], g.HasNode n) (next : s.pending = n :: pending) :
    (((g.nodeD n).epsilonTargets.foldl visit { s with pending }).Explores g start) ∧
      ((g.nodeD n).epsilonTargets.foldl visit { s with pending }).pending.length +
        ((g.nodeD n).epsilonTargets.foldl visit { s with pending }).missing + 1 =
          s.pending.length + s.missing := by
  have has : s.Has n := explores.found n (next ▸ List.mem_cons_self)
  have reached := explores.reached n has
  have targets : ∀ q ∈ (g.nodeD n).epsilonTargets, q ∈ g.reach start [] := fun q member =>
    silent_reach g start n reached q member
  obtain ⟨size, has', pending', count⟩ := foldl_visit (s := { s with pending }) fun q member => by
    rw [explores.size]
    exact inside q (targets q member)
  refine ⟨⟨size.trans explores.size, fun p member => (has' p).2 (.inl (explores.starts p member)), ?_,
    ?_, ?_⟩, ?_⟩
  · intro m found
    exact ((has' m).1 found).elim (explores.reached m) (targets m)
  · intro m member
    rcases (pending' m).1 member with old | ⟨new, _⟩
    · exact (has' m).2 (.inl (explores.found m (next ▸ List.mem_cons_of_mem _ old)))
    · exact (has' m).2 (.inr new)
  · intro m found
    by_cases old : s.Has m
    · rcases explores.followed m old with waits | followed
      · rw [next, List.mem_cons] at waits
        rcases waits with rfl | waits
        · exact .inr fun q member => (has' q).2 (.inr member)
        · exact .inl ((pending' m).2 (.inl waits))
      · exact .inr fun q member => (has' q).2 (.inl (followed q member))
    · exact .inl ((pending' m).2 (.inr ⟨((has' m).1 found).resolve_left old, old⟩))
  · rw [count, next, List.length_cons]
    show pending.length + s.missing + 1 = _
    omega

theorem nodesBelow_eq (s : Search) (n : Nat) (more : List NodeId) :
    s.nodesBelow n more = (List.range n).filter (s.found.getD · false) ++ more := by
  induction n generalizing more with
  | zero => rfl
  | succ n ih =>
      rw [nodesBelow, ih, List.range_succ, List.filter_append, List.append_assoc, List.filter_singleton]
      cases s.found.getD n false <;> rfl

theorem mem_nodes (s : Search) (n : NodeId) : n ∈ s.nodes ↔ s.Has n := by
  rw [nodes, nodesBelow_eq, List.append_nil, List.mem_filter, List.mem_range]
  exact ⟨fun member => member.2, fun has => ⟨has.lt_size, has⟩⟩

theorem pairwise_nodes (s : Search) : Ascending s.nodes := by
  rw [nodes, nodesBelow_eq, List.append_nil]
  exact List.pairwise_lt_range.filter _

theorem Explores.mem_nodes_iff (explores : s.Explores g start) (done : s.pending = []) (n : NodeId) :
    n ∈ s.nodes ↔ n ∈ g.reach start [] := by
  rw [mem_nodes]
  refine ⟨explores.reached n, ?_⟩
  rintro ⟨p, member, path⟩
  have silent : g.Silent {n | s.Has n} := fun m has =>
    (explores.followed m has).resolve_left (by simp [done])
  exact silent.mem (explores.starts p member) path

theorem finish_nil (bound : Nat) (done : s.pending = []) : s.finish g bound = .ok s.nodes := by
  rw [finish.eq_def, done]

theorem finish_cons {pending : List NodeId} (bound : Nat) (next : s.pending = n :: pending)
    (inside : g.HasNode n) : s.finish g (bound + 1) =
      ((g.nodeD n).epsilonTargets.foldl visit { s with pending }).finish g bound := by
  rw [finish.eq_def, next]
  simp only [node?_of_lt inside]

theorem Explores.finish {bound : Nat} (explores : s.Explores g start)
    (inside : ∀ n ∈ g.reach start [], g.HasNode n)
    (enough : s.pending.length + s.missing ≤ bound) :
    ∃ found, s.finish g bound = .ok found ∧ Ascending found ∧
      ∀ n, n ∈ found ↔ n ∈ g.reach start [] := by
  induction bound generalizing s with
  | zero =>
      have done : s.pending = [] := List.eq_nil_of_length_eq_zero (by omega)
      rw [finish_nil 0 done]
      exact ⟨s.nodes, rfl, s.pairwise_nodes, explores.mem_nodes_iff done⟩
  | succ bound ih =>
      cases next : s.pending with
      | nil =>
          rw [finish_nil _ next]
          exact ⟨s.nodes, rfl, s.pairwise_nodes, explores.mem_nodes_iff next⟩
      | cons n pending =>
          have size := inside n (explores.reached n (explores.found n (next ▸ List.mem_cons_self)))
          obtain ⟨explores, count⟩ := explores.follow inside next
          rw [finish_cons bound next size]
          exact ih explores (by omega)

end Search

theorem closure_eq_ok (start : List NodeId)
    (inside : ∀ n ∈ g.reach {p | p ∈ start} [], g.HasNode n) :
    ∃ set, g.closure start = .ok set ∧ Ascending set ∧
      ∀ n, n ∈ set ↔ n ∈ g.reach {p | p ∈ start} [] := by
  let s : Search := { found := .replicate g.size false }
  have none : ∀ n, ¬ s.Has n := by
    intro n
    by_cases size : g.HasNode n <;> simp [s, Search.Has, Array.getD_eq_getD_getElem?, size]
  have reached : ∀ n ∈ start, n ∈ g.reach {p | p ∈ start} [] := fun n member => ⟨n, member, .stay n⟩
  obtain ⟨size, has, pending, count⟩ := Search.foldl_visit (s := s) fun n member => by
    rw [Array.size_replicate]
    exact inside n (reached n member)
  refine Search.Explores.finish ⟨by rw [size, Array.size_replicate], ?_, ?_, ?_, ?_⟩ inside ?_
  · exact fun n member => (has n).2 (.inr member)
  · exact fun n found => reached n (((has n).1 found).resolve_left (none n))
  · exact fun n member => (has n).2 (((pending n).1 member).elim (by cases ·) fun new => .inr new.1)
  · exact fun n found => .inl ((pending n).2 (.inr ⟨((has n).1 found).resolve_left (none n), none n⟩))
  · have all : s.missing = g.size := by simp [s, Search.missing]
    rw [count, all]
    show 0 + g.size ≤ g.size + 1
    omega

def SilentReach (g : Graph) (start : List NodeId) (n : NodeId) : Prop :=
  ∃ p ∈ start, Relation.ReflTransGen (fun p q => q ∈ (g.nodeD p).epsilonTargets) p n

theorem reads_nil_iff :
    g.Reads p [] q ↔ Relation.ReflTransGen (fun p q => q ∈ (g.nodeD p).epsilonTargets) p q := by
  constructor
  · intro path
    generalize empty : ([] : List Nat) = word at path
    induction path with
    | stay p => exact .refl
    | @step p q r label word next _ ih =>
        obtain ⟨none, rest⟩ := List.nil_eq_append_iff.1 empty
        cases label with
        | none => exact .head next (ih rest.symm)
        | some code => cases none
  · intro path
    induction path with
    | refl => exact .stay p
    | tail _ next ih => exact ih.trans (.silent next (.stay _))

section

variable {start start' set : List NodeId}

theorem mem_reach_nil : n ∈ g.reach {p | p ∈ start} [] ↔ g.SilentReach start n :=
  exists_congr fun _ => and_congr_right fun _ => reads_nil_iff

theorem SilentReach.of_mem (member : n ∈ start) : g.SilentReach start n := ⟨n, member, .refl⟩

theorem SilentReach.mem (closed : ∀ p ∈ start, ∀ q ∈ (g.nodeD p).epsilonTargets, q ∈ start)
    (reached : g.SilentReach start n) : n ∈ start := by
  obtain ⟨p, member, path⟩ := reached
  induction path with
  | refl => exact member
  | tail _ next ih => exact closed _ ih _ next

variable (inside : ∀ n < g.size, ∀ q ∈ (g.nodeD n).epsilonTargets, g.HasNode q)
  (known : ∀ n ∈ start, g.HasNode n) (known' : ∀ n ∈ start', g.HasNode n)
include inside known

theorem SilentReach.lt_size (reached : g.SilentReach start n) : g.HasNode n := by
  obtain ⟨p, member, path⟩ := reached
  induction path with
  | refl => exact known p member
  | tail _ next ih => exact inside _ ih _ next

theorem exists_closure : ∃ set, g.closure start = .ok set ∧ Ascending set ∧
    ∀ n, n ∈ set ↔ g.SilentReach start n := by
  obtain ⟨set, closure, ascending, members⟩ := closure_eq_ok start fun n reached =>
    (mem_reach_nil.1 reached).lt_size inside known
  exact ⟨set, closure, ascending, fun n => (members n).trans mem_reach_nil⟩

theorem closure_eq_self_iff : g.closure start = .ok start ↔ Ascending start ∧
    ∀ p ∈ start, ∀ q ∈ (g.nodeD p).epsilonTargets, q ∈ start := by
  obtain ⟨set, closure, ascending, members⟩ := exists_closure inside known
  rw [closure, Except.ok.injEq]
  constructor
  · rintro rfl
    refine ⟨ascending, fun p member q next => ?_⟩
    obtain ⟨first, there, path⟩ := (members p).1 member
    exact (members q).2 ⟨first, there, path.tail next⟩
  · rintro ⟨ascending', closed⟩
    exact Ascending.eq_of_mem_iff ascending ascending' fun n =>
      (members n).trans ⟨SilentReach.mem closed, SilentReach.of_mem⟩

theorem closure_closure (closure : g.closure start = .ok set) : g.closure set = .ok set := by
  obtain ⟨set', closure', ascending, members⟩ := exists_closure inside known
  cases closure.symm.trans closure'
  refine (closure_eq_self_iff inside fun n member => ?_).2 ⟨ascending, fun p member q next => ?_⟩
  · exact ((members n).1 member).lt_size inside known
  · obtain ⟨first, there, path⟩ := (members p).1 member
    exact (members q).2 ⟨first, there, path.tail next⟩

include known'

theorem closure_eq_iff : g.closure start = g.closure start' ↔
    ∀ n, g.SilentReach start n ↔ g.SilentReach start' n := by
  obtain ⟨set, closure, ascending, members⟩ := exists_closure inside known
  obtain ⟨set', closure', ascending', members'⟩ := exists_closure inside known'
  rw [closure, closure', Except.ok.injEq]
  constructor
  · rintro rfl n
    rw [← members, members']
  · intro same
    exact Ascending.eq_of_mem_iff ascending ascending' fun n => by rw [members, members', same]

end

theorem closure_canonical
    (inside : ∀ n < g.size, ∀ q ∈ (g.nodeD n).epsilonTargets, g.HasNode q)
    (start : List NodeId) (known : ∀ n ∈ start, g.HasNode n) :
    (∃ set, g.closure start = .ok set ∧ Ascending set ∧
        (∀ n, n ∈ set ↔ g.SilentReach start n) ∧ g.closure set = .ok set) ∧
      (∀ start', (∀ n ∈ start', g.HasNode n) →
        (g.closure start = g.closure start' ↔ ∀ n, g.SilentReach start n ↔ g.SilentReach start' n)) ∧
      (g.closure start = .ok start ↔ Ascending start ∧
        ∀ p ∈ start, ∀ q ∈ (g.nodeD p).epsilonTargets, q ∈ start) := by
  obtain ⟨set, closure, ascending, members⟩ := exists_closure inside known
  exact ⟨⟨set, closure, ascending, members, closure_closure inside known closure⟩,
    fun _ known' => closure_eq_iff inside known known', closure_eq_self_iff inside known⟩

def eddy : Graph where
  nodes := #[{ epsilon := some [1, 0] }, { epsilon := some [2] }, { epsilon := some [1] },
    { epsilon := some [0, 3] }, {}]

theorem closure_canonical_eddy : eddy.closure [3, 2, 3] = .ok [0, 1, 2, 3] ∧
    (∀ n, n ∈ [0, 1, 2, 3] ↔ eddy.SilentReach [3, 2, 3] n) ∧
      eddy.closure [0, 1, 2, 3] = .ok [0, 1, 2, 3] ∧
        (eddy.closure [3, 2, 3] = eddy.closure [2, 1] ↔
          ∀ n, eddy.SilentReach [3, 2, 3] n ↔ eddy.SilentReach [2, 1] n) ∧
          eddy.closure [2, 1] = .ok [1, 2] := by
  have closure : eddy.closure [3, 2, 3] = .ok [0, 1, 2, 3] := rfl
  obtain ⟨⟨set, closure', _, members, again⟩, same, _⟩ :=
    closure_canonical (g := eddy) (by decide) [3, 2, 3] (by decide)
  cases closure.symm.trans closure'
  exact ⟨closure, members, again, same [2, 1] (by decide), rfl⟩

end LongestMatch.Graph
