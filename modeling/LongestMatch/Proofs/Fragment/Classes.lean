import LongestMatch.Proofs.Fragment.Ownership

namespace LongestMatch

open Graph Build

namespace CodeRange

def Covers (rs : List CodeRange) (code : Nat) : Prop := ∃ r ∈ rs, r.contains code

theorem covers_cons {r : CodeRange} {rs : List CodeRange} {code : Nat} :
    Covers (r :: rs) code ↔ r.contains code ∨ Covers rs code := List.exists_mem_cons_iff ..

theorem covers_append {rs ss : List CodeRange} {code : Nat} :
    Covers (rs ++ ss) code ↔ Covers rs code ∨ Covers ss code := by
  simp only [Covers, List.mem_append, or_and_right, exists_or]

theorem covers_singleton {r : CodeRange} {code : Nat} : Covers [r] code ↔ r.contains code := by
  simp [Covers]

theorem covers_full {code : Nat} : Covers [full] code ↔ code ≤ maxCode := by
  simp [Covers, contains_iff, full]

theorem covers_toList_none {code : Nat} : ¬ Covers (none : Option CodeRange).toList code :=
  fun ⟨_, member, _⟩ => absurd member List.not_mem_nil

theorem covers_before? (r : CodeRange) (bound code : Nat) :
    Covers (r.before? bound).toList code ↔ r.contains code ∧ code < bound := by
  rw [contains_iff]
  cases part : r.before? bound with
  | none =>
      have := before?_eq_none part
      exact iff_of_false covers_toList_none (by omega)
  | some part' =>
      obtain ⟨_, first, last⟩ := before?_eq_some part
      rw [Option.toList_some, covers_singleton, contains_iff]
      omega

theorem covers_after? (r : CodeRange) (bound code : Nat) :
    Covers (r.after? bound).toList code ↔ r.contains code ∧ bound < code := by
  rw [contains_iff]
  cases part : r.after? bound with
  | none =>
      have := after?_eq_none part
      exact iff_of_false covers_toList_none (by omega)
  | some part' =>
      obtain ⟨_, first, last⟩ := after?_eq_some part
      rw [Option.toList_some, covers_singleton, contains_iff]
      omega

theorem covers_complement (r : CodeRange) (code : Nat) :
    Covers r.complement code ↔ code ≤ maxCode ∧ ¬ r.contains code := by
  have inside : full.contains code ↔ code ≤ maxCode := covers_singleton.symm.trans covers_full
  rw [complement, covers_append, covers_before?, covers_after?, inside, ← and_or_left, contains_iff]
  omega

def Before (r s : CodeRange) : Prop := r.last < s.first

theorem pairwise_complement (r : CodeRange) : r.complement.Pairwise Before := by
  rw [complement, List.pairwise_append]
  refine ⟨by cases full.before? r.first <;> simp, by cases full.after? r.last <;> simp, ?_⟩
  intro part member part' member'
  obtain ⟨inside, _, last⟩ := before?_eq_some (Option.mem_toList.1 member)
  obtain ⟨_, first, _⟩ := after?_eq_some (Option.mem_toList.1 member')
  have ordered := r.first_le_last
  rw [Before, last, first]
  omega

theorem covers_meet? (r s : CodeRange) (code : Nat) :
    Covers (r.meet? s).toList code ↔ r.contains code ∧ s.contains code := by
  rw [contains_iff, contains_iff]
  cases meet : r.meet? s with
  | none =>
      have := meet?_eq_none meet
      exact iff_of_false covers_toList_none (by omega)
  | some shared =>
      obtain ⟨first, last⟩ := meet?_eq_some meet
      rw [Option.toList_some, covers_singleton, contains_iff]
      omega

theorem not_covers_of_before {r : CodeRange} {rs : List CodeRange} {code : Nat}
    (later : ∀ s ∈ rs, r.Before s) (le : code ≤ r.last) : ¬ Covers rs code := by
  rintro ⟨s, member, inside⟩
  have before : r.last < s.first := later s member
  have := (contains_iff.1 inside).1
  omega

theorem exists_meet?_of_mem_meetAll {rs ss : List CodeRange} {shared : CodeRange}
    (member : shared ∈ meetAll rs ss) : ∃ r ∈ rs, ∃ s ∈ ss, r.meet? s = some shared := by
  fun_induction meetAll rs ss with
  | case1 => cases member
  | case2 => cases member
  | case3 r rs s ss left right =>
      rcases List.mem_append.1 member with here | later
      · exact ⟨r, List.mem_cons_self, s, List.mem_cons_self, Option.mem_toList.1 here⟩
      split at later
      · obtain ⟨r', memberR, found⟩ := left later
        exact ⟨r', List.mem_cons_of_mem _ memberR, found⟩
      · obtain ⟨r', memberR, s', memberS, meet⟩ := right later
        exact ⟨r', memberR, s', List.mem_cons_of_mem _ memberS, meet⟩

theorem pairwise_meetAll {rs ss : List CodeRange} (ascending : rs.Pairwise Before)
    (ascending' : ss.Pairwise Before) : (meetAll rs ss).Pairwise Before := by
  fun_induction meetAll rs ss with
  | case1 => exact .nil
  | case2 => exact .nil
  | case3 r rs s ss left right =>
      obtain ⟨above, tail⟩ := List.pairwise_cons.1 ascending
      obtain ⟨above', tail'⟩ := List.pairwise_cons.1 ascending'
      refine List.pairwise_append.2 ⟨by cases r.meet? s <;> simp, ?_, ?_⟩
      · split
        · exact left tail ascending'
        · exact right ascending tail'
      · intro part here part' later
        have ends := (meet?_eq_some (Option.mem_toList.1 here)).2
        split at later
        · obtain ⟨r', memberR, s', _, meet⟩ := exists_meet?_of_mem_meetAll later
          have before : r.last < r'.first := above r' memberR
          rw [Before, ends, (meet?_eq_some meet).1]
          omega
        · obtain ⟨r', _, s', memberS, meet⟩ := exists_meet?_of_mem_meetAll later
          have before : s.last < s'.first := above' s' memberS
          rw [Before, ends, (meet?_eq_some meet).1]
          omega

/-- The range that ends first is done with: it ends before the later ranges of the other list begin,
so it has no code point in common with them. -/
theorem covers_meetAll {rs ss : List CodeRange} (ascending : rs.Pairwise Before)
    (ascending' : ss.Pairwise Before) (code : Nat) :
    Covers (meetAll rs ss) code ↔ Covers rs code ∧ Covers ss code := by
  fun_induction meetAll rs ss with
  | case1 => simp [Covers]
  | case2 => simp [Covers]
  | case3 r rs s ss left right =>
      obtain ⟨above, tail⟩ := List.pairwise_cons.1 ascending
      obtain ⟨above', tail'⟩ := List.pairwise_cons.1 ascending'
      rw [covers_append, covers_meet?, covers_cons, covers_cons]
      split
      · rename_i first
        have only : r.contains code ∧ (s.contains code ∨ Covers ss code) ↔
            r.contains code ∧ s.contains code := and_congr_right fun inside =>
          or_iff_left (not_covers_of_before above' (by have := (contains_iff.1 inside).2; omega))
        rw [left tail ascending', covers_cons, or_and_right, only]
      · rename_i later
        have only : (r.contains code ∨ Covers rs code) ∧ s.contains code ↔
            r.contains code ∧ s.contains code := and_congr_left fun inside =>
          or_iff_left (not_covers_of_before above (by have := (contains_iff.1 inside).2; omega))
        rw [right ascending tail', covers_cons, and_or_left, only]

theorem outside_concat (rs : List CodeRange) (r : CodeRange) :
    outside (rs ++ [r]) = meetAll (outside rs) r.complement := List.foldl_concat ..

theorem pairwise_outside (rs : List CodeRange) : (outside rs).Pairwise Before := by
  induction rs using List.reverseRecOn with
  | nil => exact List.pairwise_singleton _ _
  | append_singleton rs r ih =>
      rw [outside_concat]
      exact pairwise_meetAll ih (pairwise_complement r)

theorem covers_outside (rs : List CodeRange) (code : Nat) :
    Covers (outside rs) code ↔ code ≤ maxCode ∧ ¬ Covers rs code := by
  induction rs using List.reverseRecOn with
  | nil => exact covers_full.trans (and_iff_left covers_toList_none).symm
  | append_singleton rs r ih =>
      rw [outside_concat, covers_meetAll (pairwise_outside rs) (pairwise_complement r), ih,
        covers_complement, covers_append, covers_singleton, not_or, and_and_and_comm, and_self]

def bounds (r : CodeRange) : Nat × Nat := (r.first, r.last)

theorem exists_bounds (pairs : List (Nat × Nat))
    (valid : ∀ pair ∈ pairs, pair.1 ≤ pair.2 ∧ pair.2 ≤ maxCode) :
    ∃ rs : List CodeRange, pairs = rs.map bounds := by
  induction pairs with
  | nil => exact ⟨[], rfl⟩
  | cons pair pairs ih =>
      obtain ⟨rs, rfl⟩ := ih fun p member => valid p (List.mem_cons_of_mem _ member)
      obtain ⟨ordered, bounded⟩ := valid pair List.mem_cons_self
      exact ⟨⟨pair.1, pair.2, ordered, bounded⟩ :: rs, rfl⟩

end CodeRange

open CodeRange

namespace Fragment

def single (has : Nat → Prop) : Language Nat := {word | ∃ code, has code ∧ word = [code]}

def withArcs (f : Fragment) (g : Graph) (rs : List CodeRange) : Graph :=
  rs.foldl (fun g r => g.modify f.entry (·.addEdge (.arc ⟨r, [f.exit]⟩))) g

variable {g : Graph} {f : Fragment}

@[simp]
theorem size_withArcs (f : Fragment) (g : Graph) (rs : List CodeRange) :
    (f.withArcs g rs).size = g.size := by
  induction rs generalizing g with
  | nil => rfl
  | cons r rs ih => rw [withArcs, List.foldl_cons, ← withArcs, ih, size_modify]

theorem yields_addArcs (inside : f.entry < g.size) (rs : List CodeRange) :
    Yields (f.addArcs rs) g () (f.withArcs g rs) := by
  induction rs generalizing g with
  | nil => exact yields_pure _ _
  | cons r rs ih => exact (yields_addEdge inside _).bind (ih (by rwa [size_modify]))

theorem yields_addBounds (inside : f.entry < g.size) (rs : List CodeRange) :
    Yields (f.addBounds (rs.map bounds)) g () (f.withArcs g rs) := by
  induction rs generalizing g with
  | nil => exact yields_pure _ _
  | cons r rs ih =>
      exact (yields_range r.first_le_last r.last_le g).bind
        ((yields_addEdge inside _).bind (ih (by rwa [size_modify])))

theorem yields_ranges (rs : List CodeRange) (g : Graph) :
    Yields (ranges (rs.map bounds)) g rs g := by
  induction rs with
  | nil => exact yields_pure _ _
  | cons r rs ih =>
      exact (yields_range r.first_le_last r.last_le g).bind (ih.bind (yields_pure _ _))

theorem nodeD_withArcs_of_ne (rs : List CodeRange) {n : NodeId} (other : n ≠ f.entry) :
    (f.withArcs g rs).nodeD n = g.nodeD n := by
  induction rs generalizing g with
  | nil => rfl
  | cons r rs ih => rw [withArcs, List.foldl_cons, ← withArcs, ih, nodeD_modify_of_ne _ other]

theorem handlers_withArcs (inside : f.entry < g.size) (rs : List CodeRange) (n : NodeId) :
    ((f.withArcs g rs).nodeD n).handlers = (g.nodeD n).handlers := by
  induction rs generalizing g with
  | nil => rfl
  | cons r rs ih =>
      rw [withArcs, List.foldl_cons, ← withArcs, ih (by rwa [size_modify])]
      by_cases same : n = f.entry
      · rw [same, nodeD_modify_self _ inside]
        rfl
      · rw [nodeD_modify_of_ne _ same]

theorem mem_targets_withArcs (inside : f.entry < g.size) (rs : List CodeRange)
    (label : Option Nat) (q : NodeId) : q ∈ (f.withArcs g rs).targets f.entry label ↔
      q ∈ g.targets f.entry label ∨ (∃ code, label = some code ∧ Covers rs code) ∧ q = f.exit := by
  induction rs generalizing g with
  | nil => simp [withArcs, Covers]
  | cons r rs ih =>
      rw [withArcs, List.foldl_cons, ← withArcs, ih (by rwa [size_modify]),
        mem_targets_addEdge inside]
      cases label with
      | none => simp [Edge.passes]
      | some code =>
          simp only [Edge.passes, Edge.targets, Covers, List.mem_cons, exists_eq_or_imp,
            Option.some.injEq, exists_eq_left']
          tauto

theorem size_lt_fresh (g : Graph) : g.size < ((g.push {}).push {}).size := by
  rw [size_push, size_push]
  omega

theorem nodeD_fresh {n : NodeId} (new : g.size ≤ n) : ((g.push {}).push {}).nodeD n = {} := by
  rw [nodeD_push_empty, nodeD_push_empty, nodeD_of_size_le new]

theorem grows_withArcs (g : Graph) (rs : List CodeRange) :
    g.Grows ∅ (withArcs ⟨g.size, g.size + 1⟩ ((g.push {}).push {}) rs) where
  size_le := by
    rw [size_withArcs]
    exact Nat.le_of_lt (size_lt_fresh g)
  kept n old _ := by
    rw [nodeD_withArcs_of_ne rs (Nat.ne_of_lt old), nodeD_push_empty, nodeD_push_empty]

theorem owns_withArcs (g : Graph) (rs : List CodeRange) :
    Owns ⟨g.size, g.size + 1⟩ (withArcs ⟨g.size, g.size + 1⟩ ((g.push {}).push {}) rs)
      (Set.Ico g.size (g.size + 2)) (single (Covers rs)) := by
  have size : ((g.push {}).push {}).size = g.size + 2 := by simp
  have inside := size_lt_fresh g
  have start : ∀ label q, q ∈ (withArcs ⟨g.size, g.size + 1⟩ ((g.push {}).push {}) rs).targets g.size
      label ↔ (∃ code, label = some code ∧ Covers rs code) ∧ q = g.size + 1 := by
    intro label q
    rw [mem_targets_withArcs (f := ⟨g.size, g.size + 1⟩) inside, or_iff_right]
    rw [targets, nodeD_fresh (Nat.le_refl _)]
    cases label <;> exact List.not_mem_nil
  have stop : ∀ {n}, g.size < n → ∀ label,
      (withArcs ⟨g.size, g.size + 1⟩ ((g.push {}).push {}) rs).targets n label = [] := by
    intro n beyond label
    rw [targets, nodeD_withArcs_of_ne rs (Nat.ne_of_gt beyond), nodeD_fresh (Nat.le_of_lt beyond)]
    cases label <;> rfl
  refine ⟨⟨?_, ?_, ?_⟩, ?_, ?_, ?_⟩
  · rintro p ⟨lower, _⟩ label q next
    rcases Nat.eq_or_lt_of_le lower with rfl | beyond
    · rw [((start label q).1 next).2]
      exact ⟨Nat.le_succ _, Nat.lt_succ_self _⟩
    · rw [stop beyond] at next
      cases next
  · exact ⟨Nat.le_refl _, by show g.size < g.size + 2; omega⟩
  · exact ⟨Nat.le_succ _, Nat.lt_succ_self _⟩
  · intro n member
    rw [size_withArcs, size]
    exact member.2
  · intro n member
    rw [handlers_withArcs (f := ⟨g.size, g.size + 1⟩) inside, nodeD_fresh member.1]
  · ext word
    rw [mem_language]
    constructor
    · intro path
      rcases reads_iff.1 path with ⟨_, equal⟩ | ⟨label, q, rest, rfl, next, path⟩
      · exact (Nat.succ_ne_self _ equal).elim
      · obtain ⟨⟨code, rfl, covered⟩, rfl⟩ := (start _ _).1 next
        obtain ⟨rfl, _⟩ := (reads_of_targets_eq_nil (stop (Nat.lt_succ_self _))).1 path
        exact ⟨code, covered, rfl⟩
    · rintro ⟨code, covered, rfl⟩
      exact .step ((start (some code) _).2 ⟨⟨code, rfl, covered⟩, rfl⟩) (.stay _)

theorem makes_withArcs (work : Build Fragment) (rs : List CodeRange)
    (yields : Yields work g ⟨g.size, g.size + 1⟩
      (withArcs ⟨g.size, g.size + 1⟩ ((g.push {}).push {}) rs)) :
    work.Makes g ∅ (single (Covers rs)) := by
  refine ⟨_, _, yields, ?_, grows_withArcs g rs⟩
  rw [Set.empty_union, size_withArcs, size_push, size_push]
  exact owns_withArcs g rs

theorem single_congr {has has' : Nat → Prop} (same : ∀ code, has code ↔ has' code) :
    single has = single has' := by
  rw [funext fun code => propext (same code)]

theorem makes_literal {first last : Nat} (ordered : first ≤ last) (bounded : last ≤ maxCode)
    (g : Graph) : (literal first last).Makes g ∅ (single fun code => first ≤ code ∧ code ≤ last) := by
  have made := makes_withArcs (literal first last) (g := g)
    [⟨first, last, ordered, bounded⟩] ((yields_fresh g).bind ((yields_addBounds (size_lt_fresh g)
      [⟨first, last, ordered, bounded⟩]).bind (yields_pure _ _)))
  rwa [single_congr (show ∀ code, _ ↔ first ≤ code ∧ code ≤ last from fun code => by
    simp [Covers, contains_iff])] at made

theorem makes_any (g : Graph) : any.Makes g ∅ (single (· ≤ maxCode)) := by
  have made := makes_withArcs any (g := g) [.full]
    ((yields_fresh g).bind ((yields_addArcs (size_lt_fresh g) [.full]).bind (yields_pure _ _)))
  rwa [single_congr fun code => covers_full] at made

theorem yields_ofClass {rs : List CodeRange} (some : rs ≠ []) (g : Graph) :
    Yields (ofClass (rs.map bounds)) g ⟨g.size, g.size + 1⟩
      (withArcs ⟨g.size, g.size + 1⟩ ((g.push {}).push {}) rs) := by
  rw [ofClass, if_neg (by rw [List.isEmpty_iff, List.map_eq_nil_iff]; exact some)]
  exact (yields_fresh g).bind ((yields_addBounds (size_lt_fresh g) rs).bind (yields_pure _ _))

theorem yields_ofNegatedClass {rs : List CodeRange} (some : rs ≠ []) (g : Graph) :
    Yields (ofNegatedClass (rs.map bounds)) g ⟨g.size, g.size + 1⟩
      (withArcs ⟨g.size, g.size + 1⟩ ((g.push {}).push {}) (outside rs)) := by
  rw [ofNegatedClass, if_neg (by rw [List.isEmpty_iff, List.map_eq_nil_iff]; exact some)]
  exact (yields_ranges rs g).bind ((yields_fresh g).bind
    ((yields_addArcs (size_lt_fresh g) _).bind (yields_pure _ _)))

theorem makes_ofClass {rs : List CodeRange} (some : rs ≠ []) (g : Graph) :
    (ofClass (rs.map bounds)).Makes g ∅ (single (Covers rs)) :=
  makes_withArcs _ rs (yields_ofClass some g)

theorem makes_ofNegatedClass {rs : List CodeRange} (some : rs ≠ []) (g : Graph) :
    (ofNegatedClass (rs.map bounds)).Makes g ∅
      (single fun code => code ≤ maxCode ∧ ¬ Covers rs code) := by
  rw [← single_congr (covers_outside rs)]
  exact makes_withArcs _ (outside rs) (yields_ofNegatedClass some g)

end Fragment

end LongestMatch
