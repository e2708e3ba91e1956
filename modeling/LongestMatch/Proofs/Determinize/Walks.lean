import LongestMatch.Proofs.Automaton.Walk
import LongestMatch.Proofs.Determinize.Subsets

namespace LongestMatch.Graph

variable {g : Graph} {nodes start : Set NodeId} {set : List NodeId} {p q : NodeId} {code : Nat}
  {word : List Nat}

theorem exists_of_reads_cons (silent : g.Silent start) (member : p ∈ start)
    (path : g.Reads p (code :: word) q) :
    ∃ n ∈ start, ∃ m ∈ g.targets n (some code), g.Reads m word q := by
  generalize whole : code :: word = read at path
  induction path with
  | stay p => cases whole
  | @step p q r label rest next path ih =>
      cases label with
      | none => exact ih (silent p member q next) whole
      | some code' =>
          cases whole
          exact ⟨p, member, q, next, path⟩

theorem reach_nil (silent : g.Silent start) : g.reach start [] = start := by
  ext q
  constructor
  · rintro ⟨p, member, path⟩
    exact silent.mem member path
  · exact fun member => ⟨q, member, .stay q⟩

theorem reach_cons (silent : g.Silent start) (code : Nat) (word : List Nat) :
    g.reach start (code :: word) =
      g.reach {m | ∃ n ∈ start, m ∈ g.targets n (some code)} word := by
  ext q
  constructor
  · rintro ⟨p, member, path⟩
    obtain ⟨n, source, m, next, rest⟩ := exists_of_reads_cons silent member path
    exact ⟨m, ⟨n, source, next⟩, rest⟩
  · rintro ⟨m, ⟨n, source, next⟩, rest⟩
    exact ⟨n, source, .step next rest⟩

theorem reach_reach (g : Graph) (start : Set NodeId) (word : List Nat) :
    g.reach (g.reach start []) word = g.reach start word := by
  ext q
  constructor
  · rintro ⟨m, ⟨p, member, first⟩, rest⟩
    exact ⟨p, member, first.trans rest⟩
  · rintro ⟨p, member, path⟩
    exact ⟨p, ⟨p, member, .stay p⟩, path⟩

namespace Subsets

variable {s : Subsets} {id : Nat}

theorem Knows.reach_linked (knows : s.Knows g nodes) (region : g.Region nodes)
    (known : s.StandsFor id set) {there set' : List NodeId}
    (poured : Arc.targetsAt code (g.arcsOf set).arcs = some there)
    (closure : g.closure there = .ok set') :
    {n | n ∈ set'} = g.reach {m | ∃ n ∈ {n | n ∈ set}, m ∈ g.targets n (some code)} [] := by
  have same : {m | ∃ n ∈ {n | n ∈ set}, m ∈ g.targets n (some code)} = {m | m ∈ there} := by
    ext m
    have all : m ∈ (Arc.targetsAt code (g.arcsOf set).arcs).getD [] ↔
        ∃ n ∈ set, m ∈ g.targets n (some code) := mem_targetsAt_arcsOf
    rw [poured] at all
    exact all.symm
  obtain ⟨set'', closure', _, members⟩ := closure_eq_ok (g := g) there fun n member => by
    rw [← same] at member
    refine region.inside n (region.reach_subset ?_ [] member)
    rintro m ⟨p, source, next⟩
    exact region.closed p ((knows.canonical id set known).subset p source) _ m next
  rw [closure] at closure'
  cases closure'
  rw [same]
  exact Set.ext members

theorem Knows.walk_cases (knows : s.Knows g nodes) (expanded : s.Expanded g s.sets.size)
    (region : g.Region nodes) (known : s.StandsFor id set) (word : List Nat) :
    (s.states.walk id word = none ∧ g.reach {n | n ∈ set} word = ∅) ∨
      ∃ (n : Nat) (set' : List NodeId), s.states.walk id word = some n ∧ s.StandsFor n set' ∧
        {n | n ∈ set'} = g.reach {n | n ∈ set} word := by
  induction word generalizing id set with
  | nil =>
      exact .inr ⟨id, set, rfl, known, (reach_nil (knows.canonical id set known).silent).symm⟩
  | cons code word ih =>
      have links := expanded id known.lt_size set known code
      have targets : ∀ m, m ∈ (Arc.targetsAt code (g.arcsOf set).arcs).getD [] ↔
          ∃ n ∈ set, m ∈ g.targets n (some code) := fun m => mem_targetsAt_arcsOf
      rw [reach_cons (knows.canonical id set known).silent, walk, next?, Graph.targets, Node.targets]
      cases poured : Arc.targetsAt code (g.arcsOf set).arcs with
      | none =>
          rw [poured] at links targets
          generalize Arc.targetsAt code (s.states.nodeD id).arcs.arcs = next at links
          cases links
          refine .inl ⟨rfl, Set.eq_empty_iff_forall_notMem.2 ?_⟩
          rintro q ⟨m, next, _⟩
          cases (targets m).2 next
      | some there =>
          rw [poured] at links
          generalize Arc.targetsAt code (s.states.nodeD id).arcs.arcs = next at links
          cases links with
          | some linked =>
              obtain ⟨state, set', rfl, known', closure⟩ := linked
              have rest := ih known'
              rw [knows.reach_linked region known poured closure, reach_reach] at rest
              exact rest

theorem Knows.single (knows : s.Knows g nodes) (expanded : s.Expanded g s.sets.size) :
    s.states.Single := by
  intro id arc member
  have inside : id < s.sets.size := by
    by_contra beyond
    rw [nodeD_of_size_le (knows.size ▸ Nat.not_lt.1 beyond)] at member
    cases member
  obtain ⟨set, known⟩ := exists_standsFor inside
  have links := expanded id inside set known arc.range.first
  rw [Arc.targetsAt_of_mem (s.states.nodeD id).arcs.disjoint member
    (CodeRange.contains_iff.2 ⟨Nat.le_refl _, arc.range.first_le_last⟩)] at links
  generalize Arc.targetsAt arc.range.first (g.arcsOf set).arcs = first at links
  cases links with
  | some linked =>
      obtain ⟨state, set', only, known', _⟩ := linked
      exact ⟨state, only, knows.hasNode known'⟩

end Subsets

structure Determined (g : Graph) (start : NodeId) (states : Graph) (first : NodeId) : Prop where
  inside : states.HasNode first
  single : states.Single
  stuck : ∀ word, states.walk first word = none → g.reach {start} word = ∅
  ascending : ∀ n, Ascending (states.nodeD n).handlers
  handlers : ∀ word n, states.walk first word = some n → ∀ h,
    h ∈ (states.nodeD n).handlers ↔ ∃ q ∈ g.reach {start} word, h ∈ (g.nodeD q).handlers

theorem determinize_determined (region : g.Region nodes) (member : p ∈ nodes) (limit : Option Nat) :
    Meets limit (g.determinize p limit) ∨ ∃ states first,
      g.determinize p limit = .ok (states, first) ∧ g.Determined p states first := by
  refine (determinize_cases region member limit).imp_right ?_
  rintro ⟨s, result, finished⟩
  have knows := finished.toKnows
  obtain ⟨set, known, reached⟩ := finished.start
  have walks := knows.walk_cases finished.expanded region known
  simp only [reached, reach_reach] at walks
  refine ⟨s.states, 0, result, knows.hasNode known, knows.single finished.expanded, ?_, ?_, ?_⟩
  · intro word stuck
    rcases walks word with ⟨_, none⟩ | ⟨n, _, walk, _⟩
    · exact none
    · rw [walk] at stuck
      cases stuck
  · intro n
    rcases Nat.lt_or_ge n s.sets.size with inside | beyond
    · obtain ⟨set', known'⟩ := Subsets.exists_standsFor inside
      rw [knows.handlers n set' known']
      exact pairwise_handlersOf g set'
    · rw [nodeD_of_size_le (knows.size ▸ beyond)]
      exact .nil
  · intro word n walk h
    rcases walks word with ⟨stuck, _⟩ | ⟨n', set', walk', known', reached'⟩
    · rw [stuck] at walk
      cases walk
    · rw [walk'] at walk
      cases walk
      rw [knows.handlers n set' known', mem_handlersOf, ← reached']
      rfl

theorem Determined.accepts {states : Graph} {first : NodeId} (determined : g.Determined p states first)
    (word : List Nat) :
    states.Accepts first word ↔ ∃ q ∈ g.reach {p} word, (g.nodeD q).handlers ≠ [] := by
  constructor
  · rintro ⟨n, walk, some⟩
    obtain ⟨h, member⟩ := List.exists_mem_of_ne_nil _ (Node.isAccepting_iff.1 some)
    obtain ⟨q, reached, handles⟩ := (determined.handlers word n walk h).1 member
    exact ⟨q, reached, List.ne_nil_of_mem handles⟩
  · rintro ⟨q, reached, some⟩
    obtain ⟨h, member⟩ := List.exists_mem_of_ne_nil _ some
    cases walk : states.walk first word with
    | none =>
        rw [determined.stuck word walk] at reached
        cases reached
    | some n =>
        have handles := (determined.handlers word n walk h).2 ⟨q, reached, member⟩
        exact ⟨n, walk, Node.isAccepting_iff.2 (List.ne_nil_of_mem handles)⟩

inductive Walks (g : Graph) : NodeId → List Nat → NodeId → Prop where
  | stay (n : NodeId) : Walks g n [] n
  | step {n m q : NodeId} {code : Nat} {word : List Nat} {e : Edge}
      (edge : (g.nodeD n).edgeFor? code = some e) (only : e.targets = [m])
      (rest : Walks g m word q) : Walks g n (code :: word) q

inductive Stuck (g : Graph) : NodeId → List Nat → Prop where
  | here {n : NodeId} {code : Nat} {word : List Nat}
      (none : (g.nodeD n).edgeFor? code = none) : Stuck g n (code :: word)
  | later {n m : NodeId} {code : Nat} {word : List Nat} {e : Edge}
      (edge : (g.nodeD n).edgeFor? code = some e) (only : e.targets = [m])
      (rest : Stuck g m word) : Stuck g n (code :: word)

theorem edgeFor?_eq {g : Graph} {n : NodeId} (valid : code ≤ maxCode) :
    (g.nodeD n).edgeFor? code = ((g.nodeD n).arcs.find? code).map .arc := by
  have other : code ≠ epsilonCode := Nat.ne_of_lt (Nat.lt_of_le_of_lt valid (by decide))
  rw [Node.edgeFor?, if_neg other]

theorem Single.edgeFor?_cases {g : Graph} (single : g.Single) (n : NodeId) (valid : code ≤ maxCode) :
    (g.nodeD n).edgeFor? code = none ∧ g.next? n code = none ∨
      ∃ e m, (g.nodeD n).edgeFor? code = some e ∧ e.targets = [m] ∧ g.next? n code = some m := by
  rw [edgeFor?_eq valid, next?, targets, Node.targets, Arc.targetsAt, ArcSet.find?]
  cases found : (g.nodeD n).arcs.arcs.find? (·.range.contains code) with
  | none => exact .inl ⟨rfl, rfl⟩
  | some arc =>
      obtain ⟨m, only, _⟩ := single n arc (List.mem_of_find?_eq_some found)
      refine .inr ⟨.arc arc, m, rfl, only, ?_⟩
      simp [only]

theorem Single.walks_or_stuck {g : Graph} (single : g.Single) {n : NodeId}
    (valid : ∀ code ∈ word, code ≤ maxCode) :
    (g.walk n word = none ∧ g.Stuck n word) ∨ ∃ q, g.walk n word = some q ∧ g.Walks n word q := by
  induction word generalizing n with
  | nil => exact .inr ⟨n, rfl, .stay n⟩
  | cons code word ih =>
      rw [walk]
      rcases single.edgeFor?_cases n (valid code List.mem_cons_self) with
        ⟨none, next⟩ | ⟨e, m, edge, only, next⟩
      · rw [next]
        exact .inl ⟨rfl, .here none⟩
      · rw [next]
        rcases ih fun code member => valid code (List.mem_cons_of_mem _ member) with
          ⟨stuck, rest⟩ | ⟨q, walk, rest⟩
        · exact .inl ⟨stuck, .later edge only rest⟩
        · exact .inr ⟨q, walk, .step edge only rest⟩

theorem region_of_edges (inside : ∀ n < g.size, ∀ e ∈ (g.nodeD n).edges, ∀ q ∈ e.targets,
    g.HasNode q) : g.Region {n | g.HasNode n} :=
  ⟨closed_of_edges inside, fun _ => id⟩

/-- Without meeting the limit, the subset construction succeeds, and a walk of a word through its
states is stuck only where no node can be reached by reading the word, and ends otherwise in a state
that accepts for the handlers of the nodes that can be. -/
theorem determinize_walks (inside : ∀ n < g.size, ∀ e ∈ (g.nodeD n).edges, ∀ q ∈ e.targets,
    g.HasNode q) (member : g.HasNode p) (limit : Option Nat) :
    Meets limit (g.determinize p limit) ∨ ∃ states first, g.determinize p limit = .ok (states, first) ∧
      ∀ word : List Nat, (∀ code ∈ word, code ≤ maxCode) →
        (states.Stuck first word ∧ g.reach {p} word = ∅) ∨
          ∃ n, states.Walks first word n ∧ Ascending (states.nodeD n).handlers ∧
            ∀ h, h ∈ (states.nodeD n).handlers ↔ ∃ q ∈ g.reach {p} word, h ∈ (g.nodeD q).handlers := by
  refine (determinize_determined (region_of_edges inside) member limit).imp_right ?_
  rintro ⟨states, first, result, determined⟩
  refine ⟨states, first, result, fun word valid => ?_⟩
  rcases determined.single.walks_or_stuck valid with ⟨none, stuck⟩ | ⟨n, walk, walks⟩
  · exact .inl ⟨stuck, determined.stuck word none⟩
  · exact .inr ⟨n, walks, determined.ascending n, determined.handlers word n walk⟩

def crossing : Graph where
  nodes := #[
    (({} : Node).addEdge (.arc ⟨⟨97, 99, by decide, by decide⟩, [0, 1]⟩)).addEdge (.epsilon [2]),
    (({} : Node).addEdge (.arc ⟨⟨98, 98, by decide, by decide⟩, [2]⟩)).addHandler 3,
    ((({} : Node).addEdge (.arc ⟨⟨97, 98, by decide, by decide⟩, [1]⟩)).addEdge (.epsilon [0])).addHandler 1]

theorem determinize_walks_crossing :
    (∀ n < crossing.size, ∀ e ∈ (crossing.nodeD n).edges, ∀ q ∈ e.targets,
      crossing.HasNode q) ∧ crossing.HasNode 0 ∧
    ∃ states first, crossing.determinize 0 none = .ok (states, first) ∧
      ∀ word : List Nat, (∀ code ∈ word, code ≤ maxCode) →
        (states.Stuck first word ∧ crossing.reach {0} word = ∅) ∨
          ∃ n, states.Walks first word n ∧ Ascending (states.nodeD n).handlers ∧
            ∀ h, h ∈ (states.nodeD n).handlers ↔
              ∃ q ∈ crossing.reach {0} word, h ∈ (crossing.nodeD q).handlers := by
  have inside : ∀ n < crossing.size, ∀ e ∈ (crossing.nodeD n).edges, ∀ q ∈ e.targets,
      crossing.HasNode q := by decide
  have start : crossing.HasNode 0 := by decide
  refine ⟨inside, start, ?_⟩
  rcases determinize_walks inside start none with ⟨_, unlimited, _⟩ | determinized
  · cases unlimited
  · exact determinized

end LongestMatch.Graph
