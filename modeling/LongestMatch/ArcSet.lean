import LongestMatch.Edge

namespace LongestMatch

namespace Arc

def Before (a b : Arc) : Prop := a.range.last < b.range.first

instance (a b : Arc) : Decidable (a.Before b) := inferInstanceAs (Decidable (_ < _))

/-- Lays `a` over ascending disjoint arcs. It is cut against every arc that it overlaps, and where both
read a code point, the targets are united. -/
def overlay (a : Arc) : List Arc → List Arc
  | [] => [a]
  | x :: xs =>
    match x.range.meet? a.range with
    | none => if a.Before x then a :: x :: xs else x :: a.overlay xs
    | some shared =>
      x.joint a shared ++ (x.after? shared.last).toList ++
        match a.after? shared.last with
        | none => xs
        | some beyond => beyond.overlay xs

theorem before?_eq_some {a part : Arc} {code : Nat} (h : a.before? code = some part) :
    a.range.first < code ∧ part.range.first = a.range.first ∧
      part.range.last = min a.range.last (code - 1) ∧ part.targets = a.targets := by
  obtain ⟨range, found, rfl⟩ := Option.map_eq_some_iff.1 h
  obtain ⟨inside, first, last⟩ := CodeRange.before?_eq_some found
  exact ⟨inside, first, last, rfl⟩

theorem after?_eq_some {a part : Arc} {code : Nat} (h : a.after? code = some part) :
    code < a.range.last ∧ part.range.first = max a.range.first (code + 1) ∧
      part.range.last = a.range.last ∧ part.targets = a.targets := by
  obtain ⟨range, found, rfl⟩ := Option.map_eq_some_iff.1 h
  obtain ⟨inside, first, last⟩ := CodeRange.after?_eq_some found
  exact ⟨inside, first, last, rfl⟩

theorem mem_joint {a b y : Arc} {shared : CodeRange} (meet : a.range.meet? b.range = some shared)
    (member : y ∈ a.joint b shared) :
    min a.range.first b.range.first ≤ y.range.first ∧ y.range.last ≤ shared.last := by
  have ⟨first, last⟩ := CodeRange.meet?_eq_some meet
  have := shared.first_le_last
  simp only [joint, List.mem_append, Option.mem_toList, List.mem_singleton] at member
  rcases member with (front | front) | rfl
  · have := before?_eq_some front; omega
  · have := before?_eq_some front; omega
  · exact ⟨by simp only; omega, Nat.le_refl _⟩

theorem pairwise_joint {a b : Arc} {shared : CodeRange}
    (meet : a.range.meet? b.range = some shared) : (a.joint b shared).Pairwise Before := by
  have ⟨first, last⟩ := CodeRange.meet?_eq_some meet
  unfold joint
  cases left : a.before? shared.first <;> cases right : b.before? shared.first
  · simp
  · have := before?_eq_some right
    simp [Before]; omega
  · have := before?_eq_some left
    simp [Before]; omega
  · have := before?_eq_some left
    have := before?_eq_some right
    omega

theorem le_of_mem_overlay (bound : Nat) {a : Arc} {xs : List Arc} (arc : bound ≤ a.range.first)
    (arcs : ∀ x ∈ xs, bound ≤ x.range.first) : ∀ y ∈ a.overlay xs, bound ≤ y.range.first := by
  induction xs generalizing a with
  | nil => simpa [overlay] using arc
  | cons x xs ih =>
    have head := arcs x List.mem_cons_self
    have tail : ∀ x ∈ xs, bound ≤ x.range.first := fun x member =>
      arcs x (List.mem_cons_of_mem _ member)
    intro y member
    unfold overlay at member
    split at member
    · split at member
      · rcases List.mem_cons.1 member with rfl | member
        · exact arc
        · exact arcs y member
      · rcases List.mem_cons.1 member with rfl | member
        · exact head
        · exact ih arc tail y member
    · rename_i shared meet
      rcases List.mem_append.1 member with member | member
      · rcases List.mem_append.1 member with member | member
        · have := mem_joint meet member; omega
        · have := after?_eq_some (Option.mem_toList.1 member); omega
      · split at member
        · exact tail y member
        · rename_i beyond found
          have := after?_eq_some found
          exact ih (by omega) tail y member

theorem pairwise_overlay (a : Arc) {xs : List Arc} (disjoint : xs.Pairwise Before) :
    (a.overlay xs).Pairwise Before := by
  induction xs generalizing a with
  | nil => simp [overlay]
  | cons x xs ih =>
    obtain ⟨head, tail⟩ := List.pairwise_cons.1 disjoint
    unfold overlay
    split
    · rename_i apart
      split
      · rename_i first
        refine List.pairwise_cons.2 ⟨fun y member => ?_, disjoint⟩
        rcases List.mem_cons.1 member with rfl | member
        · exact first
        · have := head y member
          have := x.range.first_le_last
          simp only [Before] at *; omega
      · rename_i later
        refine List.pairwise_cons.2 ⟨le_of_mem_overlay (x.range.last + 1) ?_ head, ih a tail⟩
        have := CodeRange.meet?_eq_none apart
        simp only [Before] at later; omega
    · rename_i shared meet
      have ⟨first, last⟩ := CodeRange.meet?_eq_some meet
      have := shared.first_le_last
      have rest : ∀ y ∈ (match a.after? shared.last with
          | none => xs
          | some beyond => beyond.overlay xs), shared.last < y.range.first ∧
            ∀ z, x.after? shared.last = some z → z.Before y := by
        intro y member
        split at member
        · have := head y member
          refine ⟨by simp only [Before] at *; omega, fun z found => ?_⟩
          have := after?_eq_some found
          simp only [Before] at *; omega
        · rename_i beyond found
          have := after?_eq_some found
          refine ⟨le_of_mem_overlay (shared.last + 1) (by omega) ?_ y member, ?_⟩
          · intro x' member'
            have := head x' member'
            simp only [Before] at *; omega
          · intro z found'
            have := after?_eq_some found'
            omega
      refine List.pairwise_append.2 ⟨List.pairwise_append.2 ⟨pairwise_joint meet, ?_, ?_⟩, ?_, ?_⟩
      · cases x.after? shared.last <;> simp
      · intro y member z member'
        have := mem_joint meet member
        have := after?_eq_some (Option.mem_toList.1 member')
        simp only [Before]; omega
      · split
        · exact tail
        · exact ih _ tail
      · intro y member z member'
        have ⟨lower, above⟩ := rest z member'
        rcases List.mem_append.1 member with member | member
        · have := mem_joint meet member
          simp only [Before]; omega
        · exact above y (Option.mem_toList.1 member)

end Arc

structure ArcSet where
  arcs : List Arc := []
  disjoint : arcs.Pairwise Arc.Before := by exact .nil
  deriving DecidableEq

namespace ArcSet

instance : EmptyCollection ArcSet := ⟨{}⟩

def overlay (s : ArcSet) (a : Arc) : ArcSet := ⟨a.overlay s.arcs, Arc.pairwise_overlay a s.disjoint⟩

def find? (s : ArcSet) (code : Nat) : Option Arc := s.arcs.find? (·.range.contains code)

end ArcSet

end LongestMatch
