import Mathlib.Data.Finset.Powerset
import LongestMatch.Proofs.Determinize.Sets
import LongestMatch.Proofs.Determinize.Signature
import LongestMatch.Proofs.RedBlack.Ordered

/-!
# The subset construction

Every state stands for a set of nodes that no step without a label leaves, different states for
different sets. Once a state has been expanded, each of its arcs has one target, which stands for the
closure of what the arcs of the nodes lead to. There are no more states than sets of nodes, so that
the construction ends within its bound unless it meets the limit. The states have their numbers in the
order in which a search that looks at one state after the other finds them (`Unfolds`).
-/

namespace LongestMatch.Graph

structure Canonical (g : Graph) (nodes : Set NodeId) (set : List NodeId) : Prop where
  ascending : Ascending set
  silent : g.Silent {n | n ∈ set}
  subset : ∀ n ∈ set, n ∈ nodes

def Meets {α : Type} (limit : Option Nat) (result : Except Failure α) : Prop :=
  ∃ bound, limit = some bound ∧ result = .error (.error (.tooManyStates bound))

theorem Meets.bind {α β : Type} {limit : Option Nat} {first : Except Failure α}
    (meets : Meets limit first) (next : α → Except Failure β) : Meets limit (first >>= next) := by
  obtain ⟨bound, known, rfl⟩ := meets
  exact ⟨bound, known, rfl⟩

theorem bind_ok_cases {α β : Type} {first : Except Failure α} {next : α → Except Failure β} {b : β}
    (ends : first >>= next = .ok b) : ∃ a, first = .ok a ∧ next a = .ok b := by
  cases first with
  | error e => cases ends
  | ok a => exact ⟨a, rfl, ends⟩

/-- If the nodes are looked at in order from node `i` on, when the first `found` of them have been
found, all nodes are found, and in the order of their numbers. -/
inductive Unfolds (g : Graph) : Nat → Nat → Prop
  | done : Unfolds g g.size g.size
  | look {i found found' : Nat} (inside : i < found)
      (next : NodeId.unite (List.range found) ((g.nodeD i).arcs.arcs.flatMap Arc.targets) =
        List.range found')
      (rest : Unfolds g (i + 1) found') : Unfolds g i found

namespace Subsets

def StandsFor (s : Subsets) (state : Nat) (set : List NodeId) : Prop := s.sets[state]? = some set

/-- The memo knows exactly the sets that states stand for. -/
structure Keyed (s : Subsets) : Prop where
  size : s.states.size = s.sets.size
  sorted : s.memo.Sorted
  memo : ∀ set entry, s.memo.find? (signature set, 0) = some entry ↔
    entry.1 = signature set ∧ s.StandsFor entry.2 set

structure Knows (g : Graph) (nodes : Set NodeId) (s : Subsets) : Prop extends Keyed s where
  canonical : ∀ state set, s.StandsFor state set → g.Canonical nodes set
  handlers : ∀ state set, s.StandsFor state set →
    (s.states.nodeD state).handlers = g.handlersOf set

/-- The second set of arcs leads to the states of the closures of what the first one leads to. -/
def Linked (g : Graph) (s : Subsets) (arcs linked : List Arc) : Prop :=
  ∀ code, Option.Rel (fun targets next => ∃ state set, next = [state] ∧ s.StandsFor state set ∧
    g.closure targets = .ok set) (Arc.targetsAt code arcs) (Arc.targetsAt code linked)

/-- The states found before stay what they are, but for some of them, and new ones have no edges. -/
structure Keeps (s : Subsets) (changed : Set Nat) (s' : Subsets) : Prop where
  size_le : s.states.size ≤ s'.states.size
  sets : ∀ {state set}, s.StandsFor state set → s'.StandsFor state set
  states : ∀ state ∉ changed, s.states.HasNode state →
    s'.states.nodeD state = s.states.nodeD state
  fresh : ∀ state, s.states.size ≤ state →
    (s'.states.nodeD state).withoutEdges = s'.states.nodeD state

/-- The state has got arcs behind those it had. They lead to states found before and to the new ones,
and to these in the order of their numbers. -/
structure Gains (s : Subsets) (state : Nat) (added : List Arc) (s' : Subsets) : Prop where
  arcs : (s'.states.nodeD state).arcs.arcs = (s.states.nodeD state).arcs.arcs ++ added
  found : NodeId.unite (List.range s.states.size) (added.flatMap Arc.targets) =
    List.range s'.states.size
  epsilon : ∀ id, (s'.states.nodeD id).epsilon = (s.states.nodeD id).epsilon

variable {g : Graph} {nodes : Set NodeId} {limit : Option Nat} {s s' s'' : Subsets}
  {set set' : List NodeId} {state state' : Nat} {added added' : List Arc}

theorem Keeps.refl (s : Subsets) (changed : Set Nat) : s.Keeps changed s where
  size_le := Nat.le_refl _
  sets := id
  states _ _ _ := rfl
  fresh state beyond := by rw [nodeD_of_size_le beyond]; rfl

theorem Keeps.mono {changed more : Set Nat} (keeps : s.Keeps changed s') (subset : changed ⊆ more) :
    s.Keeps more s' where
  size_le := keeps.size_le
  sets := keeps.sets
  states state same := keeps.states state fun member => same (subset member)
  fresh := keeps.fresh

theorem StandsFor.lt_size (known : s.StandsFor state set) : state < s.sets.size :=
  (Array.getElem?_eq_some_iff.1 known).1

theorem Keyed.hasNode (keyed : s.Keyed) (known : s.StandsFor state set) : s.states.HasNode state :=
  Nat.lt_of_lt_of_eq known.lt_size keyed.size.symm

theorem exists_standsFor (lt : state < s.sets.size) : ∃ set, s.StandsFor state set :=
  ⟨_, Array.getElem?_eq_getElem lt⟩

theorem Keyed.exists_standsFor_of_hasNode (keyed : s.Keyed) (inside : s.states.HasNode state) :
    ∃ set, s.StandsFor state set := exists_standsFor (Nat.lt_of_lt_of_eq inside keyed.size)

theorem StandsFor.unique (known : s.StandsFor state set) (known' : s.StandsFor state set') :
    set = set' := Option.some.inj (known.symm.trans known')

theorem Keyed.injective (keyed : s.Keyed) (known : s.StandsFor state set)
    (known' : s.StandsFor state' set) : state = state' := by
  have first := (keyed.memo set (signature set, state)).2 ⟨rfl, known⟩
  have second := (keyed.memo set (signature set, state')).2 ⟨rfl, known'⟩
  rw [first] at second
  cases second
  rfl

theorem Knows.eq_of_mem_iff (knows : s.Knows g nodes) (known : s.StandsFor state set)
    (known' : s.StandsFor state' set') (same : ∀ n, n ∈ set ↔ n ∈ set') : state = state' := by
  have sets : set = set' := Ascending.eq_of_mem_iff (knows.canonical state set known).ascending
    (knows.canonical state' set' known').ascending same
  exact knows.injective known (sets ▸ known')

theorem Keeps.trans {changed : Set Nat} (first : s.Keeps changed s')
    (second : s'.Keeps changed s'') (inside : ∀ state ∈ changed, state < s.states.size) :
    s.Keeps changed s'' where
  size_le := Nat.le_trans first.size_le second.size_le
  sets known := second.sets (first.sets known)
  states state same old := (second.states state same (Nat.lt_of_lt_of_le old first.size_le)).trans
    (first.states state same old)
  fresh state beyond := by
    rcases Nat.lt_or_ge state s'.states.size with old | new
    · rw [second.states state (fun member => Nat.not_lt.2 beyond (inside state member)) old]
      exact first.fresh state beyond
    · exact second.fresh state new

theorem Gains.refl (s : Subsets) (state : Nat) : s.Gains state [] s where
  arcs := (List.append_nil _).symm
  found := rfl
  epsilon _ := rfl

theorem Gains.trans (first : s.Gains state added s') (second : s'.Gains state added' s'') :
    s.Gains state (added ++ added') s'' where
  arcs := by rw [second.arcs, first.arcs, List.append_assoc]
  found := by rw [List.flatMap_append, NodeId.unite_append, first.found, second.found]
  epsilon id := (second.epsilon id).trans (first.epsilon id)

theorem find?_memo {memo : OrderedSet (String × NodeId) (compareOn Prod.fst)}
    (sorted : memo.Sorted) (set set' : List NodeId) (state : NodeId) :
    (memo.insert (signature set, state)).1.find? (signature set', 0) =
      if set = set' then some (signature set, state) else memo.find? (signature set', 0) := by
  rw [OrderedSet.find?_insert sorted]
  simp only [compareOn, Std.LawfulEqCmp.compare_eq_iff_eq, signature_injective.eq_iff]

def push (g : Graph) (set : List NodeId) (s : Subsets) : Subsets where
  sets := s.sets.push set
  memo := (s.memo.insert (signature set, s.states.size)).1
  states := s.states.push { handlers := g.handlersOf set }

theorem standsFor_push : (s.push g set).StandsFor state set' ↔
    s.StandsFor state set' ∨ state = s.sets.size ∧ set' = set := by
  rw [StandsFor, push, Array.getElem?_push]
  split
  · rename_i last
    subst last
    simp [StandsFor, eq_comm]
  · simp [StandsFor, *]

theorem keeps_push (s : Subsets) : s.Keeps ∅ (s.push g set) where
  size_le := by simp [push]
  sets known := standsFor_push.2 (.inl known)
  states _ _ old := nodeD_push_of_lt old
  fresh state beyond := by
    rcases Nat.eq_or_lt_of_le beyond with rfl | beyond
    · rw [push, nodeD_push_size]
      rfl
    · rw [push, nodeD_of_size_le (by rwa [size_push])]
      rfl

theorem Keyed.push (keyed : s.Keyed) (g : Graph) (new : s.memo.find? (signature set, 0) = none) :
    (s.push g set).Keyed where
  size := by simp [Subsets.push, keyed.size]
  sorted := OrderedSet.sorted_insert keyed.sorted _
  memo set' entry := by
    rw [standsFor_push, Subsets.push, find?_memo keyed.sorted, ← keyed.size]
    obtain ⟨set'', state⟩ := entry
    split
    · rename_i same
      subst same
      constructor
      · intro known
        cases known
        exact ⟨rfl, .inr ⟨rfl, rfl⟩⟩
      · rintro ⟨rfl, old | ⟨rfl, _⟩⟩
        · rw [(keyed.memo _ (_, state)).2 ⟨rfl, old⟩] at new
          cases new
        · rfl
    · rename_i other
      rw [keyed.memo]
      simp [Ne.symm other]

theorem Knows.push (knows : s.Knows g nodes) (canonical : g.Canonical nodes set)
    (new : s.memo.find? (signature set, 0) = none) : (s.push g set).Knows g nodes where
  toKeyed := knows.toKeyed.push g new
  canonical state set' known := by
    rcases standsFor_push.1 known with old | ⟨_, rfl⟩
    · exact knows.canonical state set' old
    · exact canonical
  handlers state set' known := by
    rcases standsFor_push.1 known with old | ⟨rfl, rfl⟩
    · rw [(keeps_push s).states state id (knows.hasNode old), knows.handlers state set' old]
    · rw [Subsets.push, ← knows.size, nodeD_push_size]

theorem Knows.resolve (knows : s.Knows g nodes) (limit : Option Nat) (canonical : g.Canonical nodes set) :
    Meets limit (s.resolve g limit set) ∨ ∃ state s', s.resolve g limit set = .ok (state, s') ∧
      s'.Knows g nodes ∧ s.Keeps ∅ s' ∧ s'.StandsFor state set ∧
        (s.StandsFor state set ∧ s' = s ∨ state = s.sets.size ∧ s' = s.push g set) := by
  rw [Subsets.resolve]
  cases found : s.memo.find? (signature set, 0) with
  | some entry =>
      obtain ⟨_, known⟩ := (knows.memo set entry).1 found
      exact .inr ⟨entry.2, s, rfl, knows, .refl s ∅, known, .inl ⟨known, rfl⟩⟩
  | none =>
      cases full : limit.filter (· ≤ s.states.size) with
      | some bound =>
          simp only [full]
          exact .inl ⟨bound, (Option.filter_eq_some_iff.1 full).1, rfl⟩
      | none =>
          simp only [full]
          exact .inr ⟨_, s.push g set, rfl, knows.push canonical found, keeps_push s,
            standsFor_push.2 (.inr ⟨knows.size, rfl⟩), .inr ⟨knows.size, rfl⟩⟩

theorem canonical_closure (region : g.Region nodes) {targets set : List NodeId}
    (subset : ∀ n ∈ targets, n ∈ nodes) (closure : g.closure targets = .ok set) :
    g.Canonical nodes set := by
  have inside : g.reach {n | n ∈ targets} [] ⊆ nodes := region.reach_subset subset []
  obtain ⟨set', closure', ascending, members⟩ := closure_eq_ok targets fun n member =>
    region.inside n (inside member)
  rw [closure] at closure'
  cases closure'
  refine ⟨ascending, fun p member q next => ?_, fun n member => inside ((members n).1 member)⟩
  exact (members q).2 (silent_reach g _ p ((members p).1 member) q next)

theorem Keyed.modify (keyed : s.Keyed) (state : NodeId) (change : Node → Node) :
    Keyed { s with states := s.states.modify state change } where
  size := (size_modify ..).trans keyed.size
  sorted := keyed.sorted
  memo := keyed.memo

theorem Knows.modify (knows : s.Knows g nodes) (change : Node → Node)
    (inside : s.states.HasNode state)
    (handlers : (change (s.states.nodeD state)).handlers = (s.states.nodeD state).handlers) :
    Knows g nodes { s with states := s.states.modify state change } where
  toKeyed := knows.toKeyed.modify state change
  canonical := knows.canonical
  handlers state' set' known := by
    rw [← knows.handlers state' set' known]
    by_cases same : state' = state
    · rw [same, nodeD_modify_self _ inside, handlers]
    · rw [nodeD_modify_of_ne _ same]

theorem keeps_modify (s : Subsets) (state : Nat) (change : Node → Node) :
    s.Keeps {state} { s with states := s.states.modify state change } where
  size_le := Nat.le_of_eq (size_modify ..).symm
  sets := id
  states _ other _ := nodeD_modify_of_ne _ other
  fresh state' beyond := by
    rw [nodeD_of_size_le (by rwa [size_modify])]
    rfl

theorem Linked.mono {arcs linked : List Arc} (links : s.Linked g arcs linked)
    (keeps : ∀ {state set}, s.StandsFor state set → s'.StandsFor state set) :
    s'.Linked g arcs linked := by
  intro code
  have here := links code
  generalize Arc.targetsAt code arcs = targets, Arc.targetsAt code linked = next at here ⊢
  cases here with
  | none => exact .none
  | some linked =>
      obtain ⟨state, set, rfl, known, closure⟩ := linked
      exact .some ⟨state, set, rfl, keeps known, closure⟩

theorem Linked.concat {done linked : List Arc} {a : Arc} (links : s.Linked g done linked)
    (known : s.StandsFor state set) (closure : g.closure a.targets = .ok set) :
    s.Linked g (done ++ [a]) (linked ++ [{ a with targets := [state] }]) := by
  intro code
  have here := links code
  rw [Arc.targetsAt_append, Arc.targetsAt_append, Arc.targetsAt_cons, Arc.targetsAt_cons]
  generalize Arc.targetsAt code done = targets, Arc.targetsAt code linked = next at here ⊢
  cases here with
  | some linked => exact .some linked
  | none =>
      rw [Option.none_or, Option.none_or]
      split
      · exact .some ⟨state, set, rfl, known, closure⟩
      · exact .none

theorem Linked.before {done linked : List Arc} {a : Arc} (links : s.Linked g done linked)
    (before : ∀ x ∈ done, x.Before a) : ∀ x ∈ linked, x.Before a := by
  intro x member
  have here := links x.range.last
  cases covered : Arc.targetsAt x.range.last done with
  | none =>
      have last : x.range.contains x.range.last :=
        CodeRange.contains_iff.2 ⟨x.range.first_le_last, Nat.le_refl _⟩
      have none : Arc.targetsAt x.range.last linked = none := by
        rw [covered] at here
        generalize Arc.targetsAt x.range.last linked = next at here
        cases here
        rfl
      exact absurd last (Bool.eq_false_iff.1 (Arc.targetsAt_eq_none.1 none x member))
  | some targets =>
      obtain ⟨d, first, _⟩ := Option.map_eq_some_iff.1 covered
      have reads := List.find?_some first
      have inside := CodeRange.contains_iff.1 reads
      exact Nat.lt_of_le_of_lt inside.2 (before d (List.mem_of_find?_eq_some first))

def Expanded (g : Graph) (s : Subsets) (count : Nat) : Prop :=
  ∀ state < count, ∀ set, s.StandsFor state set →
    s.Linked g (g.arcsOf set).arcs (s.states.nodeD state).arcs.arcs

theorem targets_arcsOf (region : g.Region nodes) (subset : ∀ n ∈ set, n ∈ nodes) {a : Arc}
    (member : a ∈ (g.arcsOf set).arcs) : ∀ n ∈ a.targets, n ∈ nodes := by
  intro n target
  have reads : a.range.contains a.range.first :=
    CodeRange.contains_iff.2 ⟨Nat.le_refl _, a.range.first_le_last⟩
  have found := Arc.targetsAt_of_mem (g.arcsOf set).disjoint member reads
  obtain ⟨p, source, next⟩ := mem_targetsAt_arcsOf.1 (found ▸ target :
    n ∈ (Arc.targetsAt a.range.first (g.arcsOf set).arcs).getD [])
  exact region.closed p (subset p source) _ n next

theorem Knows.unite_resolved (knows : s.Knows g nodes)
    (resolved : s.StandsFor state set ∧ s' = s ∨ state = s.sets.size ∧ s' = s.push g set) :
    NodeId.unite (List.range s.states.size) [state] = List.range s'.states.size := by
  rcases resolved with ⟨known, rfl⟩ | ⟨rfl, rfl⟩
  · exact NodeId.unite_range_of_lt (knows.hasNode known)
  · rw [← knows.size, NodeId.unite_range_self, Subsets.push, size_push]

theorem epsilon_resolved
    (resolved : s.StandsFor state set ∧ s' = s ∨ state = s.sets.size ∧ s' = s.push g set) (id : NodeId) :
    (s'.states.nodeD id).epsilon = (s.states.nodeD id).epsilon := by
  rcases resolved with ⟨_, rfl⟩ | ⟨_, rfl⟩
  · rfl
  · rcases Nat.lt_or_ge id s.states.size with old | new
    · rw [(keeps_push s).states id (Set.notMem_empty id) old]
    · rw [nodeD_of_size_le new, ← (keeps_push s).fresh id new]
      rfl

theorem Knows.link_cons (knows : s.Knows g nodes) (limit : Option Nat) (region : g.Region nodes)
    (inside : s.states.HasNode state) {a : Arc} (leads : ∀ n ∈ a.targets, n ∈ nodes)
    (last : ∀ x ∈ (s.states.nodeD state).arcs.arcs, x.Before a) (rest : List Arc) :
    Meets limit (s.link g limit state ((a :: rest).map .arc)) ∨ ∃ target set s',
      s.link g limit state ((a :: rest).map .arc) = s'.link g limit state (rest.map .arc) ∧
        g.closure a.targets = .ok set ∧ s'.StandsFor target set ∧ s'.Knows g nodes ∧
          s.Keeps {state} s' ∧ s.Gains state [{ a with targets := [target] }] s' := by
  obtain ⟨set, closure, _⟩ := closure_eq_ok (g := g) a.targets fun n member =>
    region.inside n (region.reach_subset leads [] member)
  rcases knows.resolve limit (canonical_closure region leads closure) with
    meets | ⟨target, s', resolved, knows', keeps, known, found⟩
  · rw [List.map_cons, Subsets.link, Edge.targets, closure]
    exact .inl (meets.bind _)
  let change (n : Node) := n.addEdge (.arc { a with targets := [target] })
  have inside' : s'.states.HasNode state := Nat.lt_of_lt_of_le inside keeps.size_le
  refine .inr ⟨target, set, { s' with states := s'.states.modify state change }, ?_, closure, known,
    knows'.modify change inside' rfl, ?_, ?_, ?_, ?_⟩
  · rw [List.map_cons, Subsets.link, Edge.targets, closure]
    show s.resolve g limit set >>= _ = _
    rw [resolved]
    rfl
  · exact (keeps.mono (Set.empty_subset _)).trans (keeps_modify s' state change) fun _ same =>
      same ▸ inside
  · rw [nodeD_modify_self _ inside', keeps.states state (Set.notMem_empty state) inside]
    exact Arc.overlay_of_before last
  · rw [List.flatMap_singleton, knows.unite_resolved found, size_modify]
  · intro id
    rw [← epsilon_resolved found id]
    by_cases same : id = state
    · rw [same, nodeD_modify_self _ inside']
      rfl
    · rw [nodeD_modify_of_ne _ same]

theorem Knows.link (knows : s.Knows g nodes) (limit : Option Nat) (region : g.Region nodes)
    (inside : s.states.HasNode state) {done rest : List Arc}
    (disjoint : (done ++ rest).Pairwise Arc.Before)
    (subset : ∀ a ∈ rest, ∀ n ∈ a.targets, n ∈ nodes)
    (links : s.Linked g done (s.states.nodeD state).arcs.arcs) :
    Meets limit (s.link g limit state (rest.map .arc)) ∨
      ∃ s' added, s.link g limit state (rest.map .arc) = .ok s' ∧ s'.Knows g nodes ∧
        s.Keeps {state} s' ∧ s.Gains state added s' ∧
          s'.Linked g (done ++ rest) (s'.states.nodeD state).arcs.arcs := by
  induction rest generalizing s done with
  | nil => exact .inr ⟨s, [], rfl, knows, .refl s _, .refl s state, by rwa [List.append_nil]⟩
  | cons a rest ih =>
      have before : ∀ x ∈ done, x.Before a := fun x member =>
        (List.pairwise_append.1 disjoint).2.2 x member a List.mem_cons_self
      rcases knows.link_cons limit region inside (subset a List.mem_cons_self) (links.before before)
        rest with meets | ⟨target, set, s', next, closure, known, knows', keeps, gains⟩
      · exact .inl meets
      have links' : s'.Linked g (done ++ [a]) (s'.states.nodeD state).arcs.arcs := by
        rw [gains.arcs]
        exact (links.mono keeps.sets).concat known closure
      -- The arc has been laid behind those for `done`, and now counts as done.
      have append : done ++ a :: rest = done ++ [a] ++ rest := by simp
      rw [next, append]
      rcases ih knows' (Nat.lt_of_lt_of_le inside keeps.size_le) (append ▸ disjoint)
        (fun x member => subset x (List.mem_cons_of_mem _ member)) links' with
        meets | ⟨last, added, result, knows'', keeps', gains', links''⟩
      · exact .inl meets
      · exact .inr ⟨last, _, result, knows'', keeps.trans keeps' fun _ same => same ▸ inside,
          gains.trans gains', links''⟩

def Fresh (s : Subsets) (count : Nat) : Prop :=
  ∀ state ≥ count, (s.states.nodeD state).withoutEdges = s.states.nodeD state

theorem Fresh.expand_eq (fresh : s.Fresh state) (limit : Option Nat) (set : List NodeId) :
    s.expand g limit state set = s.link g limit state ((g.arcsOf set).arcs.map .arc) := by
  have empty := fresh state (Nat.le_refl _)
  have poured : g.pour set (s.states.nodeD state) =
      { s.states.nodeD state with arcs := g.arcsOf set } := by
    rw [← empty, pour_withoutEdges]
  have edges : (g.pour set (s.states.nodeD state)).edges = (g.arcsOf set).arcs.map .arc := by
    rw [poured, ← empty]
    simp [Node.edges, Node.withoutEdges]
  have emptied : (g.pour set (s.states.nodeD state)).withoutEdges = s.states.nodeD state := by
    rw [poured]
    exact empty
  rw [Subsets.expand, edges, emptied, modify_nodeD]

theorem Knows.expand (knows : s.Knows g nodes) (limit : Option Nat) (region : g.Region nodes)
    (expanded : s.Expanded g state) (fresh : s.Fresh state) (known : s.StandsFor state set) :
    Meets limit (s.expand g limit state set) ∨ ∃ s' added, s.expand g limit state set = .ok s' ∧
      s'.Knows g nodes ∧ s.Keeps {state} s' ∧ s.Gains state added s' ∧
        s'.Expanded g (state + 1) ∧ s'.Fresh (state + 1) := by
  have inside := knows.hasNode known
  have links : s.Linked g [] (s.states.nodeD state).arcs.arcs := by
    rw [← fresh state (Nat.le_refl _)]
    exact fun code => .none
  have disjoint : ([] ++ (g.arcsOf set).arcs).Pairwise Arc.Before := (g.arcsOf set).disjoint
  rw [fresh.expand_eq]
  rcases knows.link limit region inside disjoint
    (fun a member => targets_arcsOf region (knows.canonical state set known).subset member)
    links with meets | ⟨s', added, result, knows', keeps, gains, links⟩
  · exact .inl meets
  refine .inr ⟨s', added, result, knows', keeps, gains, ?_, ?_⟩
  · intro state' lt set' known'
    obtain ⟨set'', known''⟩ := exists_standsFor (Nat.lt_of_lt_of_le lt known.lt_size)
    obtain rfl := (keeps.sets known'').unique known'
    by_cases same : state' = state
    · subst same
      obtain rfl := known.unique known''
      exact links
    · have old : state' < state := by omega
      rw [keeps.states state' same (Nat.lt_trans old inside)]
      exact (expanded state' old _ known'').mono keeps.sets
  · intro state' beyond
    rcases Nat.lt_or_ge state' s.states.size with old | new
    · rw [keeps.states state' (Nat.ne_of_gt beyond) old]
      exact fresh state' (Nat.le_of_lt beyond)
    · exact keeps.fresh state' new

theorem Knows.size_le (region : g.Region nodes) (knows : s.Knows g nodes) :
    s.sets.size ≤ 2 ^ g.size := by
  let nodesOf (state : Nat) : Finset Nat := (s.sets.getD state []).toFinset
  have same : ∀ state < s.sets.size, ∃ set, s.StandsFor state set ∧ nodesOf state = set.toFinset := by
    intro state lt
    obtain ⟨set, known⟩ := exists_standsFor lt
    refine ⟨set, known, ?_⟩
    simp only [nodesOf, Array.getD_eq_getD_getElem?, show s.sets[state]? = some set from known,
      Option.getD_some]
  have card := Finset.card_le_card_of_injOn (s := Finset.range s.sets.size)
    (t := (Finset.range g.size).powerset) nodesOf ?_ ?_
  · simpa only [Finset.card_range, Finset.card_powerset] using card
  · intro state lt
    obtain ⟨set, known, equal⟩ := same state (Finset.mem_range.1 lt)
    rw [equal, Finset.mem_coe, Finset.mem_powerset]
    intro n member
    have member : n ∈ set := List.mem_toFinset.1 member
    exact Finset.mem_range.2 (region.inside n ((knows.canonical state set known).subset n member))
  · intro state lt state' lt' equal
    obtain ⟨set, known, first⟩ := same state (Finset.mem_range.1 lt)
    obtain ⟨set', known', second⟩ := same state' (Finset.mem_range.1 lt')
    apply knows.eq_of_mem_iff known known'
    intro n
    rw [← List.mem_toFinset, ← List.mem_toFinset, ← first, ← second, equal]

/-- The states before one are done with, and the others are looked at in order. -/
structure Completes (s : Subsets) (state : Nat) (s' : Subsets) : Prop where
  sets : ∀ {state set}, s.StandsFor state set → s'.StandsFor state set
  states : ∀ id < state, s'.states.nodeD id = s.states.nodeD id
  epsilon : ∀ id, (s'.states.nodeD id).epsilon = (s.states.nodeD id).epsilon
  unfolds : s'.states.Unfolds state s.states.size

theorem Knows.completed (knows : s.Knows g nodes) (expanded : s.Expanded g state)
    (within : state ≤ s.sets.size) (done : s.sets.size ≤ state) :
    s.Expanded g s.sets.size ∧ s.Completes state s := by
  obtain rfl := Nat.le_antisymm within done
  refine ⟨expanded, id, fun _ _ => rfl, fun _ => rfl, ?_⟩
  rw [← knows.size]
  exact .done

theorem Completes.expand (completes : s'.Completes (state + 1) s'') (keeps : s.Keeps {state} s')
    (gains : s.Gains state added s') (fresh : s.Fresh state)
    (inside : s.states.HasNode state) : s.Completes state s'' where
  sets known := completes.sets (keeps.sets known)
  states id old := by
    rw [completes.states id (Nat.lt_succ_of_lt old),
      keeps.states id (Nat.ne_of_lt old) (Nat.lt_trans old inside)]
  epsilon id := (completes.epsilon id).trans (gains.epsilon id)
  unfolds := by
    refine .look inside ?_ completes.unfolds
    have none : (s.states.nodeD state).arcs.arcs = [] := by
      rw [← fresh state (Nat.le_refl _)]
      rfl
    rw [completes.states state (Nat.lt_succ_self _), gains.arcs, none]
    exact gains.found

theorem Knows.finish (knows : s.Knows g nodes) (limit : Option Nat) (bound : Nat)
    (region : g.Region nodes) (expanded : s.Expanded g state) (fresh : s.Fresh state)
    (within : state ≤ s.sets.size) (enough : 2 ^ g.size ≤ bound + state) :
    Meets limit (s.finish g limit bound state) ∨ ∃ s', s.finish g limit bound state = .ok s' ∧
      s'.Knows g nodes ∧ s'.Expanded g s'.sets.size ∧ s.Completes state s' := by
  induction bound generalizing s state with
  | zero =>
      have done : s.sets.size ≤ state := by
        have := knows.size_le region
        omega
      rw [Subsets.finish, Array.getElem?_eq_none done]
      exact .inr ⟨s, rfl, knows, knows.completed expanded within done⟩
  | succ bound ih =>
      rw [Subsets.finish]
      cases known : s.sets[state]? with
      | none =>
          have done := Array.getElem?_eq_none_iff.1 known
          exact .inr ⟨s, rfl, knows, knows.completed expanded within done⟩
      | some set =>
          rcases knows.expand limit region expanded fresh known with
            meets | ⟨s', added, result, knows', keeps, gains, expanded', fresh'⟩
          · exact .inl (meets.bind _)
          simp only [result]
          show Meets limit (s'.finish g limit bound (state + 1)) ∨ _
          have inside := knows.hasNode known
          rcases ih knows' expanded' fresh' (keeps.sets known).lt_size (by omega) with
            meets | ⟨s'', result', knows'', expanded'', completes⟩
          · exact .inl meets
          · exact .inr ⟨s'', result', knows'', expanded'', completes.expand keeps gains fresh inside⟩

structure Finished (g : Graph) (nodes : Set NodeId) (p : NodeId) (s : Subsets) : Prop
    extends Knows g nodes s where
  expanded : s.Expanded g s.sets.size
  start : ∃ set, s.StandsFor 0 set ∧ {n | n ∈ set} = g.reach {p} []
  unfolds : s.states.Unfolds 0 1
  epsilon : ∀ id, (s.states.nodeD id).epsilon = none

theorem keyed_empty : Keyed {} where
  size := rfl
  sorted := OrderedSet.sorted_empty
  memo set entry := by simp [StandsFor, OrderedSet.find?_empty]

theorem knows_empty (g : Graph) (nodes : Set NodeId) : Knows g nodes {} where
  toKeyed := keyed_empty
  canonical state set known := by simp [StandsFor] at known
  handlers state set known := by simp [StandsFor] at known

end Subsets

open Subsets in
theorem determinize_cases {g : Graph} {nodes : Set NodeId} (region : g.Region nodes)
    {start : NodeId} (member : start ∈ nodes) (limit : Option Nat) :
    Meets limit (g.determinize start limit) ∨
      ∃ s : Subsets, g.determinize start limit = .ok (s.states, 0) ∧ s.Finished g nodes start := by
  have subset : ∀ n ∈ [start], n ∈ nodes := fun n same => List.mem_singleton.1 same ▸ member
  obtain ⟨set, closure, _, members⟩ := closure_eq_ok (g := g) [start] fun n reached =>
    region.inside n (region.reach_subset subset [] reached)
  have canonical := canonical_closure region subset closure
  have unfolded : g.determinize start limit = resolve g limit set {} >>= fun result =>
      result.2.finish g limit (Nat.pow 2 g.size) result.1 >>= fun s => .ok (s.states, result.1) := by
    rw [determinize, closure]
    rfl
  rw [unfolded]
  rcases (knows_empty g nodes).resolve limit canonical with
    meets | ⟨first, s, resolved, knows, keeps, known, ⟨old, _⟩ | ⟨rfl, rfl⟩⟩
  · exact .inl (meets.bind _)
  · cases old
  have fresh : Fresh (Subsets.push g set {}) 0 := fun state _ => keeps.fresh state (Nat.zero_le state)
  rcases knows.finish limit (Nat.pow 2 g.size) region
    (fun state none => (Nat.not_lt_zero state none).elim) fresh (Nat.zero_le _)
    (Nat.le_refl (Nat.pow 2 g.size + 0)) with meets | ⟨s', result, knows', expanded, completes⟩
  · rw [resolved]
    exact .inl (meets.bind _)
  · have reached : {n | n ∈ set} = g.reach {start} [] := by
      ext n
      simpa using members n
    refine .inr ⟨s', ?_, knows', expanded, ⟨set, completes.sets known, reached⟩, completes.unfolds,
      fun id => ?_⟩
    · rw [resolved]
      show (Subsets.push g set {}).finish g limit (Nat.pow 2 g.size) 0 >>= _ = _
      rw [result]
      rfl
    · rw [completes.epsilon, ← fresh id (Nat.zero_le id)]
      rfl

end LongestMatch.Graph
