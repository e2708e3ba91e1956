import Mathlib.Tactic.Common

namespace LongestMatch

open Std

variable {α : Type} {cmp : α → α → Ordering}

def put (cmp : α → α → Ordering) (x : α) : List α → List α
  | [] => [x]
  | y :: ys =>
    match cmp y x with
    | .lt => y :: put cmp x ys
    | .eq => x :: ys
    | .gt => x :: y :: ys

/-- What a search for `x` among the values relies on: below a smaller one all are smaller than `x`, and
above a greater one all are greater. Under an order this is so for all values. -/
structure Steers (cmp : α → α → Ordering) (x : α) (values : List α) : Prop where
  below : ∀ u ∈ values, ∀ v ∈ values, cmp u v = .lt → cmp v x = .lt → cmp u x = .lt
  above : ∀ u ∈ values, ∀ v ∈ values, cmp u v = .lt → cmp u x = .gt → cmp v x = .gt

/-- The values that a search for `x` leaves behind, the one that it finds, and the values beyond. If
it finds none, although all these values ascend and steer it, they are the smaller ones and the greater
ones. -/
structure Locates (cmp : α → α → Ordering) (x : α) (before : List α) (found : Option α)
    (after : List α) : Prop where
  equal : ∀ v ∈ found, cmp v x = .eq
  apart : found = none → Steers cmp x (before ++ after) → (before ++ after).Pairwise (cmp · · = .lt) →
    (∀ y ∈ before, cmp y x = .lt) ∧ ∀ y ∈ after, cmp y x = .gt

theorem put_append_of_lt {x : α} {ys : List α} (zs : List α) (before : ∀ y ∈ ys, cmp y x = .lt) :
    put cmp x (ys ++ zs) = ys ++ put cmp x zs := by
  induction ys with
  | nil => rfl
  | cons y ys ih =>
      rw [List.cons_append, put, before y List.mem_cons_self]
      simp only [ih fun y member => before y (List.mem_cons_of_mem _ member), List.cons_append]

theorem mem_put {x y : α} {ys : List α} (member : y ∈ put cmp x ys) : y = x ∨ y ∈ ys := by
  induction ys with
  | nil => exact .inl (List.mem_singleton.1 member)
  | cons z ys ih =>
      rw [put] at member
      split at member
      · rcases List.mem_cons.1 member with rfl | member
        · exact .inr List.mem_cons_self
        · exact (ih member).imp_right (List.mem_cons_of_mem _)
      · exact (List.mem_cons.1 member).imp_right (List.mem_cons_of_mem _)
      · exact List.mem_cons.1 member

section Lawful

variable [TransCmp cmp]

theorem pairwise_put (x : α) {ys : List α} (ascending : ys.Pairwise (cmp · · = .lt)) :
    (put cmp x ys).Pairwise (cmp · · = .lt) := by
  induction ys with
  | nil => exact List.pairwise_singleton _ _
  | cons y ys ih =>
      obtain ⟨head, tail⟩ := List.pairwise_cons.1 ascending
      rw [put]
      split
      · rename_i before
        refine List.pairwise_cons.2 ⟨fun z member => ?_, ih tail⟩
        rcases mem_put member with rfl | member
        · exact before
        · exact head z member
      · rename_i equal
        refine List.pairwise_cons.2 ⟨fun z member => ?_, tail⟩
        exact TransCmp.lt_of_eq_of_lt (OrientedCmp.eq_symm equal) (head z member)
      · rename_i after
        have before : cmp x y = .lt := OrientedCmp.lt_of_gt after
        refine List.pairwise_cons.2 ⟨fun z member => ?_, ascending⟩
        rcases List.mem_cons.1 member with rfl | member
        · exact before
        · exact TransCmp.lt_trans before (head z member)

theorem find?_put (x y : α) {ys : List α} (ascending : ys.Pairwise (cmp · · = .lt)) :
    (put cmp x ys).find? (cmp · y = .eq) =
      if cmp x y = .eq then some x else ys.find? (cmp · y = .eq) := by
  induction ys with
  | nil => by_cases equal : cmp x y = .eq <;> simp [put, equal]
  | cons z ys ih =>
      obtain ⟨head, tail⟩ := List.pairwise_cons.1 ascending
      rw [put]
      split
      · rename_i before
        by_cases equal : cmp x y = .eq
        · have differ : cmp z y ≠ .eq := by
            rw [TransCmp.lt_of_lt_of_eq before equal]
            decide
          simp [differ, ih tail, equal]
        · simp [List.find?_cons, ih tail, equal]
      · rename_i same
        have alike : cmp z y = .eq ↔ cmp x y = .eq :=
          ⟨TransCmp.eq_trans (OrientedCmp.eq_symm same), TransCmp.eq_trans same⟩
        by_cases equal : cmp x y = .eq
        · simp [equal]
        · simp [equal, alike]
      · by_cases equal : cmp x y = .eq <;> simp [List.find?_cons, equal]

theorem steers (x : α) (values : List α) : Steers cmp x values where
  below _ _ _ _ := TransCmp.lt_trans
  above _ _ _ _ less greater :=
    OrientedCmp.gt_of_lt (TransCmp.lt_trans (OrientedCmp.lt_of_gt greater) less)

namespace Locates

variable {x : α} {before after : List α} {found : Option α}

omit [TransCmp cmp] in
theorem of_equal {v : α} (equal : cmp v x = .eq) : Locates cmp x before (some v) after where
  equal := by simpa using equal
  apart := nofun

theorem ordered (locates : Locates cmp x before found after)
    (ascending : (before ++ found.toList ++ after).Pairwise (cmp · · = .lt)) :
    (∀ y ∈ before, cmp y x = .lt) ∧ ∀ y ∈ after, cmp y x = .gt := by
  cases found with
  | none =>
      rw [Option.toList_none, List.append_nil] at ascending
      exact locates.apart rfl (steers x _) ascending
  | some v =>
      have equal := locates.equal v rfl
      obtain ⟨lower, _, across⟩ := List.pairwise_append.1 ascending
      have below := (List.pairwise_append.1 lower).2.2
      refine ⟨fun y member => ?_, fun y member => ?_⟩
      · exact TransCmp.lt_of_lt_of_eq (below y member v (by simp)) equal
      · exact OrientedCmp.gt_of_lt
          (TransCmp.lt_of_eq_of_lt (OrientedCmp.eq_symm equal) (across v (by simp) y member))

theorem put_eq (locates : Locates cmp x before found after)
    (ascending : (before ++ found.toList ++ after).Pairwise (cmp · · = .lt)) :
    put cmp x (before ++ found.toList ++ after) = before ++ x :: after := by
  obtain ⟨smaller, greater⟩ := locates.ordered ascending
  rw [List.append_assoc, put_append_of_lt _ smaller]
  refine congrArg (before ++ ·) ?_
  cases found with
  | some v => simp [put, locates.equal v rfl]
  | none =>
      cases after with
      | nil => rfl
      | cons y ys => simp [put, greater y List.mem_cons_self]

theorem find?_eq (locates : Locates cmp x before found after)
    (ascending : (before ++ found.toList ++ after).Pairwise (cmp · · = .lt)) :
    (before ++ found.toList ++ after).find? (cmp · x = .eq) = found := by
  obtain ⟨smaller, greater⟩ := locates.ordered ascending
  have noneBefore : before.find? (cmp · x = .eq) = none := by
    rw [List.find?_eq_none]
    intro y member
    simp [smaller y member]
  have noneAfter : after.find? (cmp · x = .eq) = none := by
    rw [List.find?_eq_none]
    intro y member
    simp [greater y member]
  rw [List.append_assoc, List.find?_append, noneBefore, List.find?_append, noneAfter]
  cases found with
  | some v => simp [locates.equal v rfl]
  | none => rfl

theorem eraseP_eq (locates : Locates cmp x before found after)
    (ascending : (before ++ found.toList ++ after).Pairwise (cmp · · = .lt)) :
    (before ++ found.toList ++ after).eraseP (cmp · x = .eq) = before ++ after := by
  obtain ⟨smaller, greater⟩ := locates.ordered ascending
  rw [List.append_assoc, List.eraseP_append_right _ fun y member => by simp [smaller y member]]
  refine congrArg (before ++ ·) ?_
  cases found with
  | some v => simp [locates.equal v rfl]
  | none => exact List.eraseP_of_forall_not fun y member => by simp [greater y member]

end Locates

end Lawful

end LongestMatch
