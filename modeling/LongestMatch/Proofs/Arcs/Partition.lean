import Mathlib.Data.List.Induction
import Mathlib.Data.List.Sort
import LongestMatch.Proofs.Arcs.Overlay

/-!
# Added edges partition the code points

Whatever edges are added to a node, its arcs are the maximal runs of code points that the same added
edges read, and each leads where these edges lead together. The invariant of the proof is the pair
`targetsFor_foldl_addEdge`, where a code point leads, and `joined_foldl_addEdge`, which neighbouring
code points stay together. That the recursion by which a tree of edges is kept comes to an end, and to
the same edges, is shown in `LongestMatch.Proofs.Arcs.Tree`.
-/

namespace LongestMatch

namespace Edge

def covering (edges : List Edge) (code : Nat) : List Edge := edges.filter (·.contains code)

def united : List Edge → Option (List NodeId)
  | [] => none
  | e :: edges => some (edges.foldl (fun targets e => NodeId.unite targets e.targets) e.targets)

structure IsRun (edges : List Edge) (r : CodeRange) : Prop where
  covered : covering edges r.first ≠ []
  same : ∀ code, r.contains code → covering edges code = covering edges r.first
  begins : ∀ code, code + 1 = r.first → covering edges code ≠ covering edges r.first
  ends : r.last < maxCode → covering edges (r.last + 1) ≠ covering edges r.first

theorem united_concat (edges : List Edge) (e : Edge) :
    united (edges ++ [e]) =
      some (((united edges).map (NodeId.unite · e.targets)).getD e.targets) := by
  cases edges with
  | nil => rfl
  | cons e' edges => simp [united]

theorem united_eq_none {edges : List Edge} : united edges = none ↔ edges = [] := by
  cases edges <;> simp [united]

theorem mem_united {edges : List Edge} {targets : List NodeId} (all : united edges = some targets)
    {n : NodeId} : n ∈ targets ↔ ∃ e ∈ edges, n ∈ e.targets := by
  induction edges using List.reverseRecOn generalizing targets with
  | nil => cases all
  | append_singleton edges e ih =>
      rw [united_concat, Option.some.injEq] at all
      subst all
      cases before : united edges with
      | none => simp [united_eq_none.1 before]
      | some earlier =>
          simp only [Option.map_some, Option.getD_some, NodeId.mem_unite, ih before,
            List.mem_append, List.mem_singleton]
          constructor
          · rintro (⟨e', member, there⟩ | there)
            · exact ⟨e', .inl member, there⟩
            · exact ⟨e, .inr rfl, there⟩
          · rintro ⟨e', member | rfl, there⟩
            · exact .inl ⟨e', member, there⟩
            · exact .inr there

theorem united_eq_eraseDups {edges : List Edge} {targets : List NodeId}
    (distinct : ∀ e ∈ edges, e.targets.Nodup) (all : united edges = some targets) :
    targets.Nodup ∧ targets = (edges.flatMap Edge.targets).eraseDups := by
  induction edges using List.reverseRecOn generalizing targets with
  | nil => cases all
  | append_singleton edges e ih =>
      rw [united_concat, Option.some.injEq] at all
      subst all
      have last := distinct e (by simp)
      cases before : united edges with
      | none =>
          refine ⟨last, ?_⟩
          simp [united_eq_none.1 before, NodeId.eraseDups_of_nodup last]
      | some earlier =>
          obtain ⟨nodup, equal⟩ := ih (fun e member => distinct e (by simp [member])) before
          refine ⟨NodeId.nodup_unite nodup e.targets, ?_⟩
          simp only [Option.map_some, Option.getD_some, List.flatMap_append, List.flatMap_singleton]
          rw [NodeId.unite_eq_eraseDups nodup, equal, List.eraseDups_append, List.eraseDups_append,
            NodeId.eraseDups_of_nodup (equal ▸ nodup)]
          congr 2
          simp [List.removeAll]

theorem covering_eq_iff {edges : List Edge} {code code' : Nat} :
    covering edges code = covering edges code' ↔
      ∀ e ∈ edges, e.contains code = e.contains code' := by
  constructor
  · intro equal e member
    have memberships : e ∈ covering edges code ↔ e ∈ covering edges code' := by rw [equal]
    rw [covering, covering, List.mem_filter, List.mem_filter, and_iff_right member,
      and_iff_right member] at memberships
    exact Bool.eq_iff_iff.2 memberships
  · exact List.filter_congr

theorem covering_ne_nil {edges : List Edge} {code : Nat} :
    covering edges code ≠ [] ↔ ∃ e ∈ edges, e.contains code := by
  simp [covering]

theorem covering_concat (edges : List Edge) (e : Edge) (code : Nat) :
    covering (edges ++ [e]) code =
      if e.contains code then covering edges code ++ [e] else covering edges code := by
  cases h : e.contains code <;> simp [covering, h]

@[simp]
theorem contains_arc (a : Arc) (code : Nat) : (arc a).contains code = a.range.contains code := rfl

theorem contains_iff {e : Edge} {code : Nat} :
    e.contains code = true ↔ e.first ≤ code ∧ code ≤ e.last := by
  simp [contains]

theorem contains_epsilon {targets : List NodeId} {code : Nat} :
    (epsilon targets).contains code = true ↔ code = epsilonCode := by
  rw [contains_iff, first, last]
  omega

theorem contains_epsilonCode {e : Edge} : e.contains epsilonCode = e.isEpsilon := by
  cases e with
  | arc a =>
      have beyond := Nat.lt_of_le_of_lt a.range.last_le (by decide : maxCode < epsilonCode)
      refine Bool.eq_false_iff.2 fun inside => ?_
      exact absurd (contains_iff.1 inside).2 (Nat.not_le.2 beyond)
  | epsilon targets => exact contains_epsilon.2 rfl
  | never => rfl

theorem contains_never {code : Nat} : never.contains code = true ↔ code = neverCode := by
  rw [contains_iff, first, last]
  omega

end Edge

theorem CodeRange.ext {r s : CodeRange} (first : r.first = s.first) (last : r.last = s.last) :
    r = s := by
  cases r; cases s; cases first; cases last; rfl

namespace Arc

theorem le_of_contains {a : Arc} {code : Nat} (inside : a.range.contains code) :
    code ≤ maxCode := by
  have := CodeRange.contains_iff.1 inside
  have := a.range.last_le
  omega

theorem eq_of_contains {arcs : List Arc} (disjoint : arcs.Pairwise Before) {a b : Arc} {code : Nat}
    (memberA : a ∈ arcs) (memberB : b ∈ arcs) (insideA : a.range.contains code)
    (insideB : b.range.contains code) : a = b := by
  induction arcs with
  | nil => cases memberA
  | cons x xs ih =>
      obtain ⟨head, tail⟩ := List.pairwise_cons.1 disjoint
      have apart : ∀ y ∈ xs, x.range.contains code → y.range.contains code → False := by
        intro y member here there
        have := head y member
        rw [CodeRange.contains_iff] at here there
        simp only [Before] at this
        omega
      rcases List.mem_cons.1 memberA with rfl | memberA
      · rcases List.mem_cons.1 memberB with rfl | memberB
        · rfl
        · exact (apart b memberB insideA insideB).elim
      · rcases List.mem_cons.1 memberB with equal | memberB
        · exact (apart a memberA (equal ▸ insideB) insideA).elim
        · exact ih tail memberA memberB

theorem eq_of_mem_iff {xs ys : List Arc} (ascending : xs.Pairwise Before)
    (ascending' : ys.Pairwise Before) (same : ∀ a, a ∈ xs ↔ a ∈ ys) : xs = ys := by
  have asymmetric : Std.Asymm Before := ⟨fun a b lt gt => by
    have := a.range.first_le_last
    have := b.range.first_le_last
    simp only [Before] at lt gt
    omega⟩
  exact List.Pairwise.eq_of_mem_iff ascending ascending' fun {a} => same a

end Arc

theorem ArcSet.of_find?_eq_some {s : ArcSet} {code : Nat} {a : Arc} (found : s.find? code = some a) :
    a ∈ s.arcs ∧ a.range.contains code :=
  have reads := List.find?_some found
  ⟨List.mem_of_find?_eq_some found, reads⟩

theorem Edge.le_of_contains_succ {e : Edge} {code : Nat} (here : e.contains code)
    (next : e.contains (code + 1)) : code + 1 ≤ maxCode := by
  cases e with
  | arc a => exact Arc.le_of_contains next
  | epsilon targets =>
      have := contains_epsilon.1 here
      have := contains_epsilon.1 next
      omega
  | never =>
      have := contains_never.1 here
      have := contains_never.1 next
      omega

namespace Node

open Edge

def targetsFor (n : Node) (code : Nat) : Option (List NodeId) := (n.edgeFor? code).map Edge.targets

theorem targetsFor_epsilon (n : Node) : n.targetsFor epsilonCode = n.epsilon := by
  simp [targetsFor, edgeFor?, Function.comp_def, Edge.targets]

theorem targetsFor_code {code : Nat} (other : code ≠ epsilonCode) (n : Node) :
    n.targetsFor code = Arc.targetsAt code n.arcs.arcs := by
  rw [targetsFor, edgeFor?, if_neg other]
  simp [Arc.targetsAt, ArcSet.find?, Function.comp_def, Edge.targets]

theorem targetsFor_addEdge (n : Node) (e : Edge) {code : Nat} (passable : code ≠ neverCode) :
    (n.addEdge e).targetsFor code =
      if e.contains code then
        some (((n.targetsFor code).map (NodeId.unite · e.targets)).getD e.targets)
      else n.targetsFor code := by
  by_cases other : code = epsilonCode
  · subst other
    cases e with
    | arc a =>
        have outside : ¬ a.range.contains epsilonCode := fun inside =>
          absurd (Arc.le_of_contains inside) (by decide)
        rw [contains_arc, if_neg outside]
        simp only [targetsFor_epsilon, addEdge]
    | epsilon targets =>
        rw [if_pos (contains_epsilon.2 rfl)]
        simp only [targetsFor_epsilon, addEdge]
        cases n.epsilon <;> rfl
    | never => rw [if_neg (mt contains_never.1 passable), addEdge]
  · simp only [targetsFor_code other]
    cases e with
    | arc a => exact Arc.targetsAt_overlay a n.arcs.disjoint code
    | epsilon targets => rw [if_neg fun inside => other (contains_epsilon.1 inside), addEdge]
    | never => rw [if_neg fun inside => passable (contains_never.1 inside), addEdge]

theorem targetsFor_foldl_addEdge (n : Node) (edges : List Edge) {code : Nat}
    (passable : code ≠ neverCode) :
    (edges.foldl addEdge n.withoutEdges).targetsFor code = united (covering edges code) := by
  induction edges using List.reverseRecOn with
  | nil =>
      by_cases other : code = epsilonCode
      · rw [other, targetsFor_epsilon]; rfl
      · rw [targetsFor_code other]; rfl
  | append_singleton edges e ih =>
      rw [List.foldl_concat, targetsFor_addEdge _ e passable, ih, covering_concat]
      split
      · rw [united_concat]
      · rfl

theorem targetsAt_foldl_addEdge (n : Node) (edges : List Edge) (code : Nat)
    (le : code ≤ maxCode) :
    Arc.targetsAt code (edges.foldl addEdge n.withoutEdges).arcs.arcs = none ↔
      ¬ ∃ e ∈ edges, e.contains code := by
  have notEpsilon : code ≠ epsilonCode := Nat.ne_of_lt (Nat.lt_of_le_of_lt le (by decide))
  have notNever : code ≠ neverCode := Nat.ne_of_lt (Nat.lt_of_le_of_lt le (by decide))
  rw [← covering_ne_nil, not_not, ← targetsFor_code notEpsilon,
    targetsFor_foldl_addEdge n edges notNever, united_eq_none]

theorem joined_le {arcs : List Arc} {code : Nat} (joined : Arc.Joined arcs code) :
    code + 1 ≤ maxCode := by
  obtain ⟨_, _, _, next⟩ := joined
  exact Arc.le_of_contains next

theorem joined_addEdge (n : Node) (e : Edge) (code : Nat) :
    Arc.Joined (n.addEdge e).arcs.arcs code ↔
      (e.contains code ↔ e.contains (code + 1)) ∧
        (Arc.Joined n.arcs.arcs code ∨ e.contains code ∧ code + 1 ≤ maxCode ∧
          Arc.targetsAt code n.arcs.arcs = none ∧ Arc.targetsAt (code + 1) n.arcs.arcs = none) := by
  -- Labels other than ranges have one code, beyond those that arcs read.
  have sentinel : ∀ k, maxCode < k → (∀ c, e.contains c ↔ c = k) →
      (Arc.Joined n.arcs.arcs code ↔ (e.contains code ↔ e.contains (code + 1)) ∧
        (Arc.Joined n.arcs.arcs code ∨ e.contains code ∧ code + 1 ≤ maxCode ∧
          Arc.targetsAt code n.arcs.arcs = none ∧
            Arc.targetsAt (code + 1) n.arcs.arcs = none)) := by
    intro k beyond label
    simp only [label]
    constructor
    · intro joined
      have := joined_le joined
      exact ⟨by omega, .inl joined⟩
    · rintro ⟨_, joined | ⟨equal, le, _⟩⟩
      · exact joined
      · omega
  cases e with
  | arc a =>
      simp only [addEdge, contains_arc]
      rw [ArcSet.overlay, Arc.joined_overlay a n.arcs.disjoint]
      have := fun inside : a.range.contains (code + 1) => Arc.le_of_contains inside
      grind
  | epsilon targets => exact sentinel epsilonCode (by decide) fun _ => contains_epsilon
  | never => exact sentinel neverCode (by decide) fun _ => contains_never

theorem joined_foldl_addEdge (n : Node) (edges : List Edge) (code : Nat) :
    Arc.Joined (edges.foldl addEdge n.withoutEdges).arcs.arcs code ↔
      covering edges code ≠ [] ∧ covering edges code = covering edges (code + 1) := by
  rw [covering_ne_nil, covering_eq_iff]
  induction edges using List.reverseRecOn with
  | nil =>
      constructor
      · exact fun joined => absurd joined Arc.not_joined_nil
      · rintro ⟨⟨_, member, _⟩, _⟩; cases member
  | append_singleton edges e ih =>
      have some : (∃ x ∈ edges ++ [e], x.contains code) ↔
          (∃ x ∈ edges, x.contains code) ∨ e.contains code := by simp [or_and_right, exists_or]
      have all : (∀ x ∈ edges ++ [e], x.contains code = x.contains (code + 1)) ↔
          (∀ x ∈ edges, x.contains code = x.contains (code + 1)) ∧
            (e.contains code ↔ e.contains (code + 1)) := by
        rw [← Bool.eq_iff_iff]
        simp [or_imp, forall_and]
      have here := targetsAt_foldl_addEdge n edges code
      have next := targetsAt_foldl_addEdge n edges (code + 1)
      have vacuous : (¬ ∃ x ∈ edges, x.contains code) → (¬ ∃ x ∈ edges, x.contains (code + 1)) →
          ∀ x ∈ edges, x.contains code = x.contains (code + 1) := by
        intro none none' x member
        have outside : ¬ x.contains code := fun inside => none ⟨x, member, inside⟩
        have outside' : ¬ x.contains (code + 1) := fun inside => none' ⟨x, member, inside⟩
        rw [Bool.eq_false_iff.2 outside, Bool.eq_false_iff.2 outside']
      have alike : (∀ x ∈ edges, x.contains code = x.contains (code + 1)) →
          ((∃ x ∈ edges, x.contains code) ↔ ∃ x ∈ edges, x.contains (code + 1)) := fun all =>
        exists_congr fun x => and_congr_right fun member => by rw [all x member]
      rw [List.foldl_concat, joined_addEdge, some, all, ih]
      constructor
      · rintro ⟨same, joined | ⟨inside, le, free, free'⟩⟩
        · exact ⟨.inl joined.1, joined.2, same⟩
        · exact ⟨.inr inside, vacuous ((here (by omega)).1 free) ((next le).1 free'), same⟩
      · rintro ⟨covered | inside, same, same'⟩
        · exact ⟨same', .inl ⟨covered, same⟩⟩
        · by_cases covered : ∃ x ∈ edges, x.contains code
          · exact ⟨same', .inl ⟨covered, same⟩⟩
          · have le := le_of_contains_succ inside (same'.1 inside)
            exact ⟨same', .inr ⟨inside, le, (here (by omega)).2 covered,
              (next le).2 (mt (alike same).2 covered)⟩⟩

section Runs

variable {m : Node} {edges : List Edge}
  (joined : ∀ code, Arc.Joined m.arcs.arcs code ↔
    covering edges code ≠ [] ∧ covering edges code = covering edges (code + 1))
  (free : ∀ {code}, code ≤ maxCode →
    (Arc.targetsAt code m.arcs.arcs = none ↔ ¬ ∃ e ∈ edges, e.contains code))

include joined in
theorem covering_of_mem {a : Arc} (member : a ∈ m.arcs.arcs) {code : Nat}
    (inside : a.range.contains code) : covering edges code = covering edges a.range.first := by
  obtain ⟨lower, upper⟩ := CodeRange.contains_iff.1 inside
  obtain ⟨k, rfl⟩ := Nat.exists_eq_add_of_le lower
  clear inside lower
  induction k with
  | zero => rfl
  | succ k ih =>
      have step := (joined (a.range.first + k)).1 ⟨a, member,
        CodeRange.contains_iff.2 ⟨by omega, by omega⟩, CodeRange.contains_iff.2 ⟨by omega, by omega⟩⟩
      rw [← ih (by omega), step.2]
      rfl

include joined in
theorem contains_succ_of_mem {a : Arc} (member : a ∈ m.arcs.arcs) {code : Nat}
    (covered : covering edges code ≠ [])
    (equal : covering edges code = covering edges (code + 1)) :
    a.range.contains code ↔ a.range.contains (code + 1) := by
  obtain ⟨b, memberB, here, next⟩ := (joined code).2 ⟨covered, equal⟩
  constructor
  · intro inside
    rwa [Arc.eq_of_contains m.arcs.disjoint member memberB inside here]
  · intro inside
    rwa [Arc.eq_of_contains m.arcs.disjoint member memberB inside next]

include joined free

theorem isRun_of_mem {a : Arc} (member : a ∈ m.arcs.arcs) : IsRun edges a.range := by
  have ordered := a.range.first_le_last
  have first : a.range.contains a.range.first := CodeRange.contains_iff.2 ⟨Nat.le_refl _, ordered⟩
  have last : a.range.contains a.range.last := CodeRange.contains_iff.2 ⟨ordered, Nat.le_refl _⟩
  have covered : covering edges a.range.first ≠ [] := by
    rw [covering_ne_nil]
    by_contra none
    have nothing := Arc.targetsAt_eq_none.1 ((free (Arc.le_of_contains first)).2 none) a member
    rw [first] at nothing
    cases nothing
  refine ⟨covered, fun code => covering_of_mem joined member, ?_, ?_⟩
  · intro code before equal
    have inside := (contains_succ_of_mem joined member (equal ▸ covered) (before ▸ equal)).2
      (before ▸ first)
    have := CodeRange.contains_iff.1 inside
    omega
  · intro _ equal
    have equal := (covering_of_mem joined member last).trans equal.symm
    have inside := (contains_succ_of_mem joined member
      (covering_of_mem joined member last ▸ covered) equal).1 last
    have := CodeRange.contains_iff.1 inside
    omega

theorem exists_arc_of_isRun {r : CodeRange} (run : IsRun edges r) :
    ∃ a ∈ m.arcs.arcs, a.range = r := by
  have ordered := r.first_le_last
  have bound := r.last_le
  have some := mt (free (Nat.le_trans ordered bound)).1
    (not_not.2 (covering_ne_nil.1 run.covered))
  rw [Arc.targetsAt_eq_none] at some
  push Not at some
  obtain ⟨a, member, inside⟩ := some
  have start := CodeRange.contains_iff.1 (Bool.eq_true_of_not_eq_false inside)
  have inRun : ∀ code, r.first ≤ code → code ≤ r.last →
      covering edges code = covering edges r.first := fun code lower upper =>
    run.same code (CodeRange.contains_iff.2 ⟨lower, upper⟩)
  have first : a.range.first = r.first := by
    by_contra differ
    have together := (joined (r.first - 1)).1 ⟨a, member,
      CodeRange.contains_iff.2 ⟨by omega, by omega⟩, CodeRange.contains_iff.2 ⟨by omega, by omega⟩⟩
    rw [Nat.sub_add_cancel (by omega)] at together
    exact run.begins (r.first - 1) (by omega) together.2
  have last : a.range.last = r.last := by
    rcases Nat.lt_trichotomy a.range.last r.last with short | equal | long
    · have here := inRun a.range.last (by omega) (by omega)
      have next := inRun (a.range.last + 1) (by omega) (by omega)
      have inside := (contains_succ_of_mem joined member (here ▸ run.covered)
        (here.trans next.symm)).1 (CodeRange.contains_iff.2 ⟨by omega, Nat.le_refl _⟩)
      have := CodeRange.contains_iff.1 inside
      omega
    · exact equal
    · have together := (joined r.last).1 ⟨a, member,
        CodeRange.contains_iff.2 ⟨by omega, by omega⟩,
        CodeRange.contains_iff.2 ⟨by omega, by omega⟩⟩
      have := a.range.last_le
      exact (run.ends (by omega)
        (together.2.symm.trans (inRun r.last ordered (Nat.le_refl _)))).elim
  exact ⟨a, member, CodeRange.ext first last⟩

end Runs

structure Partitions (n : Node) (edges : List Edge) : Prop where
  ascending : n.arcs.arcs.Pairwise Arc.Before
  ranges : ∀ r, (∃ a ∈ n.arcs.arcs, a.range = r) ↔ IsRun edges r
  absent : ∀ code, code ≠ neverCode → (n.edgeFor? code = none ↔ covering edges code = [])
  present : ∀ code e, n.edgeFor? code = some e → e.contains code ∧
    ∀ target, target ∈ e.targets ↔ ∃ added ∈ covering edges code, target ∈ added.targets
  epsilon : ∀ target, target ∈ n.epsilonTargets ↔
    ∃ added ∈ edges, added.isEpsilon ∧ target ∈ added.targets
  never : n.edgeFor? neverCode = none

theorem contains_of_edgeFor? {n : Node} {code : Nat} {e : Edge} (found : n.edgeFor? code = some e) :
    e.contains code := by
  rw [edgeFor?] at found
  split at found
  · obtain ⟨targets, _, rfl⟩ := Option.map_eq_some_iff.1 found
    exact contains_epsilon.2 ‹_›
  · obtain ⟨a, member, rfl⟩ := Option.map_eq_some_iff.1 found
    exact (ArcSet.of_find?_eq_some member).2

theorem edgeFor?_never (n : Node) : n.edgeFor? neverCode = none := by
  rw [edgeFor?, if_neg (by decide), Option.map_eq_none_iff, ArcSet.find?, List.find?_eq_none]
  intro a _ inside
  exact absurd (Arc.le_of_contains inside) (by decide)

theorem edgeFor?_of_mem_edges {n : Node} {e : Edge} (member : e ∈ n.edges) {code : Nat}
    (inside : e.contains code) : n.edgeFor? code = some e := by
  rw [edges, List.mem_append, List.mem_map, Option.mem_toList] at member
  rcases member with ⟨a, member, rfl⟩ | found
  · have reads : a.range.contains code := inside
    have other : code ≠ epsilonCode :=
      Nat.ne_of_lt (Nat.lt_of_le_of_lt (Arc.le_of_contains reads) (by decide))
    rw [edgeFor?, if_neg other]
    cases found : n.arcs.find? code with
    | none => exact (List.find?_eq_none.1 found a member reads).elim
    | some b =>
        obtain ⟨there, readsB⟩ := ArcSet.of_find?_eq_some found
        rw [Arc.eq_of_contains n.arcs.disjoint there member readsB reads]
        rfl
  · obtain ⟨targets, _, rfl⟩ := Option.map_eq_some_iff.1 found
    rw [edgeFor?, if_pos (contains_epsilon.1 inside), found]

theorem partitions_foldl_addEdge (n : Node) (edges : List Edge) :
    (edges.foldl addEdge n.withoutEdges).Partitions edges where
  ascending := (edges.foldl addEdge n.withoutEdges).arcs.disjoint
  ranges r := by
    have joined := joined_foldl_addEdge n edges
    have free := fun {code} => targetsAt_foldl_addEdge n edges code
    constructor
    · rintro ⟨a, member, rfl⟩
      exact isRun_of_mem joined free member
    · exact exists_arc_of_isRun joined free
  absent code passable := by
    rw [← united_eq_none, ← targetsFor_foldl_addEdge n edges passable, targetsFor,
      Option.map_eq_none_iff]
  present code e found := by
    refine ⟨contains_of_edgeFor? found, fun target => ?_⟩
    have passable : code ≠ neverCode := by
      rintro rfl
      rw [edgeFor?_never] at found
      cases found
    have all := targetsFor_foldl_addEdge n edges passable
    rw [targetsFor, found, Option.map_some] at all
    exact mem_united all.symm
  epsilon target := by
    have all := targetsFor_foldl_addEdge n edges (show epsilonCode ≠ neverCode by decide)
    have member : (∃ added ∈ edges, added.isEpsilon ∧ target ∈ added.targets) ↔
        ∃ added ∈ covering edges epsilonCode, target ∈ added.targets := by
      simp only [covering, List.mem_filter, and_assoc, contains_epsilonCode]
    rw [targetsFor_epsilon] at all
    rw [epsilonTargets, all, member]
    cases some : united (covering edges epsilonCode) with
    | none => simp [united_eq_none.1 some]
    | some targets => exact mem_united some
  never := edgeFor?_never _

theorem isRun_of_perm {edges edges' : List Edge} (perm : edges.Perm edges') {r : CodeRange}
    (run : IsRun edges r) : IsRun edges' r := by
  have equal : ∀ {code code'}, covering edges code = covering edges code' ↔
      covering edges' code = covering edges' code' := by
    intro code code'
    rw [covering_eq_iff, covering_eq_iff]
    exact ⟨fun all e member => all e (perm.mem_iff.2 member),
      fun all e member => all e (perm.mem_iff.1 member)⟩
  refine ⟨?_, fun code inside => equal.1 (run.same code inside),
    fun code before => mt equal.2 (run.begins code before), fun last => mt equal.2 (run.ends last)⟩
  obtain ⟨e, member, inside⟩ := covering_ne_nil.1 run.covered
  exact covering_ne_nil.2 ⟨e, perm.mem_iff.1 member, inside⟩

theorem ranges_foldl_addEdge_of_perm (n : Node) {edges edges' : List Edge}
    (perm : edges.Perm edges') :
    (edges.foldl addEdge n.withoutEdges).arcs.arcs.map Arc.range =
      (edges'.foldl addEdge n.withoutEdges).arcs.arcs.map Arc.range := by
  let before (r s : CodeRange) : Prop := r.last < s.first
  have irreflexive : Std.Irrefl before := ⟨fun r lt => absurd lt (Nat.not_lt.2 r.first_le_last)⟩
  have asymmetric : Std.Antisymm before := ⟨fun r s lt gt => by
    have := r.first_le_last
    have := s.first_le_last
    simp only [before] at lt gt
    omega⟩
  have ascending : ∀ edges : List Edge,
      ((edges.foldl addEdge n.withoutEdges).arcs.arcs.map Arc.range).Pairwise before := fun edges =>
    List.pairwise_map.2 (partitions_foldl_addEdge n edges).ascending
  refine List.Pairwise.eq_of_mem_iff (r := before) (ascending edges) (ascending edges') fun r => ?_
  rw [List.mem_map, List.mem_map, (partitions_foldl_addEdge n edges).ranges,
    (partitions_foldl_addEdge n edges').ranges]
  exact ⟨isRun_of_perm perm, isRun_of_perm perm.symm⟩

theorem foldl_addEdge_never (n : Node) (edges : List Edge) :
    edges.foldl addEdge n = (edges.filter (!·.isNever)).foldl addEdge n := by
  induction edges generalizing n with
  | nil => rfl
  | cons e edges ih => cases e <;> exact ih _

theorem targets_foldl_addEdge (n : Node) {edges : List Edge}
    (distinct : ∀ e ∈ edges, e.targets.Nodup) {e : Edge}
    (member : e ∈ (edges.foldl addEdge n.withoutEdges).edges) {code : Nat}
    (inside : e.contains code) :
    e.targets = ((covering edges code).flatMap Edge.targets).eraseDups := by
  have found := edgeFor?_of_mem_edges member inside
  have passable : code ≠ neverCode := by
    rintro rfl
    rw [edgeFor?_never] at found
    cases found
  have all := targetsFor_foldl_addEdge n edges passable
  rw [targetsFor, found, Option.map_some] at all
  exact (united_eq_eraseDups (fun e member => distinct e (List.mem_filter.1 member).1) all.symm).2

theorem addEdge_partition (n : Node) (edges : List Edge) :
    (edges.foldl addEdge n.withoutEdges).Partitions edges ∧
      (∀ edges', edges.Perm edges' →
        (edges.foldl addEdge n.withoutEdges).arcs.arcs.map Arc.range =
          (edges'.foldl addEdge n.withoutEdges).arcs.arcs.map Arc.range) ∧
      edges.foldl addEdge n.withoutEdges =
        (edges.filter (!·.isNever)).foldl addEdge n.withoutEdges ∧
      ((∀ e ∈ edges, e.targets.Nodup) →
        ∀ e ∈ (edges.foldl addEdge n.withoutEdges).edges, ∀ code, e.contains code →
          e.targets = ((covering edges code).flatMap Edge.targets).eraseDups) :=
  ⟨partitions_foldl_addEdge n edges, fun _ perm => ranges_foldl_addEdge_of_perm n perm,
    foldl_addEdge_never _ edges,
    fun distinct _ member _ inside => targets_foldl_addEdge n distinct member inside⟩

end Node

end LongestMatch
