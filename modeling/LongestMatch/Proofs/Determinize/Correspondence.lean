import Mathlib.Data.Set.Function
import LongestMatch.Proofs.Determinize.Walks

namespace LongestMatch.Graph

/-- Reading a word leads from a set of nodes to another one. A code point is read if some node of the
set has an arc for it. It leads to all nodes to which such arcs lead, and on from there without
reading. -/
inductive Spreads (g : Graph) : Set NodeId → List Nat → Set NodeId → Prop where
  | stay (nodes : Set NodeId) : Spreads g nodes [] nodes
  | step {nodes last : Set NodeId} {code : Nat} {word : List Nat}
      (reads : ∃ n ∈ nodes, ∃ a ∈ (g.nodeD n).arcs.arcs, a.range.contains code)
      (rest : Spreads g (g.reach {m | ∃ n ∈ nodes, m ∈ g.targets n (some code)} []) word last) :
      Spreads g nodes (code :: word) last

variable {g : Graph} {nodes last : Set NodeId} {p n m : NodeId} {code : Nat} {word : List Nat}

theorem edgeFor?_of_epsilon (plain : (g.nodeD n).epsilon = none) (code : Nat) :
    (g.nodeD n).edgeFor? code = ((g.nodeD n).arcs.find? code).map .arc := by
  by_cases valid : code ≤ maxCode
  · exact edgeFor?_eq valid
  · have none : (g.nodeD n).arcs.find? code = none :=
      List.find?_eq_none.2 fun a _ reads => valid (Arc.le_of_contains reads)
    rw [Node.edgeFor?, plain, none]
    split <;> rfl

theorem Walks.concat {e : Edge} (walks : g.Walks p word n)
    (edge : (g.nodeD n).edgeFor? code = some e) (only : e.targets = [m]) :
    g.Walks p (word ++ [code]) m := by
  induction walks with
  | stay n => exact .step edge only (.stay m)
  | step edge' only' _ ih => exact .step edge' only' (ih edge)

theorem Unfolds.exists_walks (single : g.Single) {i found : Nat} (unfolds : g.Unfolds i found)
    (before : ∀ n < found, ∃ word, g.Walks p word n) :
    ∀ n, g.HasNode n → ∃ word, g.Walks p word n := by
  induction unfolds with
  | done => exact before
  | @look i found found' inside next rest ih =>
      apply ih
      intro n there
      rcases NodeId.mem_unite.1 (next ▸ List.mem_range.2 there) with old | new
      · exact before n (List.mem_range.1 old)
      · -- A node that is found at node `i` is one code point away from it.
        obtain ⟨arc, member, leads⟩ := List.mem_flatMap.1 new
        obtain ⟨target, only, _⟩ := single i arc member
        rw [only, List.mem_singleton] at leads
        obtain ⟨word, walks⟩ := before i inside
        have edge : (g.nodeD i).edgeFor? arc.range.first = some (.arc arc) :=
          Node.edgeFor?_of_mem_edges (List.mem_append_left _ (List.mem_map_of_mem member))
            (CodeRange.contains_iff.2 ⟨Nat.le_refl _, arc.range.first_le_last⟩)
        exact ⟨_, walks.concat edge (leads ▸ only)⟩

namespace Subsets

variable {s : Subsets} {id : Nat} {set : List NodeId}

theorem Finished.step_cases (finished : s.Finished g nodes p) (region : g.Region nodes)
    (known : s.StandsFor id set) (code : Nat) :
    ((s.states.nodeD id).edgeFor? code = none ∧
      ∀ n ∈ set, ∀ a ∈ (g.nodeD n).arcs.arcs, ¬ a.range.contains code) ∨
    ∃ e next set', (s.states.nodeD id).edgeFor? code = some e ∧ e.targets = [next] ∧
      s.StandsFor next set' ∧ (∃ n ∈ set, ∃ a ∈ (g.nodeD n).arcs.arcs, a.range.contains code) ∧
        {n | n ∈ set'} = g.reach {m | ∃ n ∈ {n | n ∈ set}, m ∈ g.targets n (some code)} [] := by
  have links := finished.expanded id known.lt_size set known code
  rw [edgeFor?_of_epsilon (finished.epsilon id)]
  cases poured : Arc.targetsAt code (g.arcsOf set).arcs with
  | none =>
      left
      rw [poured] at links
      generalize linked : Arc.targetsAt code (s.states.nodeD id).arcs.arcs = next at links
      cases links
      rw [Arc.targetsAt, Option.map_eq_none_iff] at linked
      rw [ArcSet.find?, linked]
      exact ⟨rfl, targetsAt_arcsOf_eq_none.1 poured⟩
  | some there =>
      right
      have reads : ∃ n ∈ set, ∃ a ∈ (g.nodeD n).arcs.arcs, a.range.contains code := by
        by_contra unread
        rw [targetsAt_arcsOf_eq_none.2 fun n source a member reads =>
          unread ⟨n, source, a, member, reads⟩] at poured
        cases poured
      rw [poured] at links
      generalize linked : Arc.targetsAt code (s.states.nodeD id).arcs.arcs = next at links
      cases links with
      | some related =>
          obtain ⟨next, set', rfl, known', closure⟩ := related
          obtain ⟨arc, found, leads⟩ := Option.map_eq_some_iff.1 linked
          refine ⟨.arc arc, next, set', ?_, leads, known', reads,
            finished.reach_linked region known poured closure⟩
          rw [ArcSet.find?, found]
          rfl

theorem Finished.spreads_of_walks (finished : s.Finished g nodes p) (region : g.Region nodes)
    (known : s.StandsFor id set) (walks : s.states.Walks id word n) :
    ∃ set', s.StandsFor n set' ∧ g.Spreads {n | n ∈ set} word {n | n ∈ set'} := by
  induction walks generalizing set with
  | stay n => exact ⟨set, known, .stay _⟩
  | @step id m n code word e edge only _ ih =>
      rcases finished.step_cases region known code with
        ⟨none, _⟩ | ⟨e', next, set', edge', only', known', reads, leads⟩
      · rw [edge] at none
        cases none
      · cases edge.symm.trans edge'
        cases only.symm.trans only'
        obtain ⟨set'', known'', rest⟩ := ih known'
        rw [leads] at rest
        exact ⟨set'', known'', .step reads rest⟩

theorem Finished.walks_of_spreads (finished : s.Finished g nodes p) (region : g.Region nodes)
    (known : s.StandsFor id set) (spreads : g.Spreads {n | n ∈ set} word last) :
    ∃ n set', s.states.Walks id word n ∧ s.StandsFor n set' ∧ {n | n ∈ set'} = last := by
  generalize here : {n | n ∈ set} = start at spreads
  induction spreads generalizing id set with
  | stay nodes => exact ⟨id, set, .stay id, known, here⟩
  | @step start last code word reads _ ih =>
      subst here
      rcases finished.step_cases region known code with
        ⟨_, unread⟩ | ⟨e, next, set', edge, only, known', _, leads⟩
      · obtain ⟨n, source, a, member, reads⟩ := reads
        exact (unread n source a member reads).elim
      · obtain ⟨n, set'', walks, known'', reached⟩ := ih known' leads
        exact ⟨n, set'', .step edge only walks, known'', reached⟩

def nodesOf (s : Subsets) (state : NodeId) : Set NodeId := {n | n ∈ s.sets.getD state []}

theorem StandsFor.nodesOf_eq (known : s.StandsFor id set) : s.nodesOf id = {n | n ∈ set} := by
  have there : s.sets[id]? = some set := known
  rw [nodesOf, Array.getD_eq_getD_getElem?, there, Option.getD_some]

theorem Knows.injOn_nodesOf (knows : s.Knows g nodes) :
    Set.InjOn s.nodesOf {n | s.states.HasNode n} := by
  intro n inside m inside' same
  obtain ⟨set, known⟩ := knows.exists_standsFor_of_hasNode inside
  obtain ⟨set', known'⟩ := knows.exists_standsFor_of_hasNode inside'
  rw [known.nodesOf_eq, known'.nodesOf_eq] at same
  exact knows.eq_of_mem_iff known known' (Set.ext_iff.1 same)

theorem Finished.exists_walks (finished : s.Finished g nodes p) :
    ∀ n, s.states.HasNode n → ∃ word, s.states.Walks 0 word n := by
  apply finished.unfolds.exists_walks (finished.single finished.expanded)
  intro n first
  obtain rfl := Nat.lt_one_iff.1 first
  exact ⟨[], .stay 0⟩

theorem Finished.spreads_start (finished : s.Finished g nodes p) (region : g.Region nodes)
    (walks : s.states.Walks 0 word n) :
    s.states.HasNode n ∧ g.Spreads (g.reach {p} []) word (s.nodesOf n) := by
  obtain ⟨set, known, start⟩ := finished.start
  obtain ⟨set', known', spreads⟩ := finished.spreads_of_walks region known walks
  rw [start, ← known'.nodesOf_eq] at spreads
  exact ⟨finished.hasNode known', spreads⟩

theorem Finished.walks_start (finished : s.Finished g nodes p) (region : g.Region nodes)
    (spreads : g.Spreads (g.reach {p} []) word last) :
    ∃ n, s.states.Walks 0 word n ∧ s.nodesOf n = last := by
  obtain ⟨set, known, start⟩ := finished.start
  rw [← start] at spreads
  obtain ⟨n, set', walks, known', reached⟩ := finished.walks_of_spreads region known spreads
  exact ⟨n, walks, known'.nodesOf_eq.trans reached⟩

end Subsets

structure Deterministic (g : Graph) : Prop where
  single : ∀ n, ∀ e ∈ (g.nodeD n).edges, ∃ target, e.targets = [target] ∧ g.HasNode target
  apart : ∀ n, (g.nodeD n).edges.Pairwise fun d e => d.last < e.first
  epsilon : ∀ n, (g.nodeD n).epsilon = none

theorem Single.deterministic (single : g.Single) (plain : ∀ n, (g.nodeD n).epsilon = none) :
    g.Deterministic := by
  have edges : ∀ n, (g.nodeD n).edges = (g.nodeD n).arcs.arcs.map .arc := by
    intro n
    simp [Node.edges, plain n]
  constructor
  · intro n e member
    rw [edges] at member
    obtain ⟨arc, stored, rfl⟩ := List.mem_map.1 member
    exact single n arc stored
  · intro n
    rw [edges]
    exact List.pairwise_map.2 (g.nodeD n).arcs.disjoint
  · exact plain

/-- The states stand for the sets that words spread to from the nodes that can be reached from the
start without reading, each set for one state, and every state can be walked to. -/
structure OneForEach (g : Graph) (start : NodeId) (states : Graph) (first : NodeId)
    (set : NodeId → Set NodeId) : Prop where
  bijective : Set.BijOn set {n | states.HasNode n}
    {nodes | ∃ word, g.Spreads (g.reach {start} []) word nodes}
  walks : ∀ word n, states.Walks first word n ↔
    states.HasNode n ∧ g.Spreads (g.reach {start} []) word (set n)
  reached : ∀ n, states.HasNode n → ∃ word, states.Walks first word n

theorem Subsets.Finished.oneForEach {s : Subsets} (finished : s.Finished g nodes p)
    (region : g.Region nodes) : g.OneForEach p s.states 0 s.nodesOf where
  bijective := by
    refine ⟨?_, finished.injOn_nodesOf, ?_⟩
    · intro n there
      obtain ⟨word, walks⟩ := finished.exists_walks n there
      exact ⟨word, (finished.spreads_start region walks).2⟩
    · rintro last ⟨word, spreads⟩
      obtain ⟨n, walks, same⟩ := finished.walks_start region spreads
      exact ⟨n, (finished.spreads_start region walks).1, same⟩
  walks word n := by
    constructor
    · exact finished.spreads_start region
    · -- The word leads to a state of this set, and there is only one.
      rintro ⟨there, spreads⟩
      obtain ⟨m, walks, same⟩ := finished.walks_start region spreads
      rwa [← finished.injOn_nodesOf (finished.spreads_start region walks).1 there same]
  reached := finished.exists_walks

theorem determinize_bijective (inside : ∀ n < g.size, ∀ e ∈ (g.nodeD n).edges, ∀ q ∈ e.targets,
    g.HasNode q) (member : g.HasNode p) :
    ∃ states first set, g.determinize p none = .ok (states, first) ∧
      g.OneForEach p states first set ∧ states.Deterministic := by
  have region := region_of_edges inside
  rcases determinize_cases region member none with ⟨_, unlimited, _⟩ | ⟨s, result, finished⟩
  · cases unlimited
  · have single := finished.single finished.expanded
    exact ⟨s.states, 0, s.nodesOf, result, finished.oneForEach region,
      single.deterministic finished.epsilon⟩

theorem determinize_bijective_crossing :
    (∀ n < crossing.size, ∀ e ∈ (crossing.nodeD n).edges, ∀ q ∈ e.targets,
      crossing.HasNode q) ∧ crossing.HasNode 0 ∧
    ∃ states first set, crossing.determinize 0 none = .ok (states, first) ∧
      crossing.OneForEach 0 states first set ∧ states.Deterministic := by
  have inside : ∀ n < crossing.size, ∀ e ∈ (crossing.nodeD n).edges, ∀ q ∈ e.targets,
      crossing.HasNode q := by decide
  have start : crossing.HasNode 0 := by decide
  exact ⟨inside, start, determinize_bijective inside start⟩

end LongestMatch.Graph
