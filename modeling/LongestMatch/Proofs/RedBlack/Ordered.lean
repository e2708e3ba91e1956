import LongestMatch.OrderedSet
import LongestMatch.Proofs.RedBlack.Remove

namespace LongestMatch.OrderedSet

open Std

variable {α : Type} {cmp : α → α → Ordering} {s : OrderedSet α cmp}

def Sorted (s : OrderedSet α cmp) : Prop :=
  ∃ xs, s.tree.Lists xs ∧ xs.Pairwise (cmp · · = .lt)

theorem sorted_empty : Sorted (∅ : OrderedSet α cmp) := ⟨[], LinkedTree.lists_empty, .nil⟩

theorem find?_empty (x : α) : (∅ : OrderedSet α cmp).find? x = none := rfl

variable [TransCmp cmp] {xs : List α}

theorem find?_eq (lists : s.tree.Lists xs) (ascending : xs.Pairwise (cmp · · = .lt)) (x : α) :
    s.find? x = xs.find? (cmp · x = .eq) := by
  obtain ⟨found, eq, before, after, locates, rfl⟩ := LinkedTree.find_lists lists cmp x
  rw [find?, eq, locates.find?_eq ascending]
  rfl

theorem insert_lists (lists : s.tree.Lists xs) (ascending : xs.Pairwise (cmp · · = .lt)) (x : α) :
    (s.insert x).1.tree.Lists (put cmp x xs) := by
  obtain ⟨⟨t, old⟩, eq, before, after, locates, rfl, lists'⟩ := LinkedTree.insert_lists lists cmp x
  rw [insert, eq, locates.put_eq ascending]
  exact lists'

theorem sorted_insert (sorted : s.Sorted) (x : α) : (s.insert x).1.Sorted := by
  obtain ⟨xs, lists, ascending⟩ := sorted
  exact ⟨_, insert_lists lists ascending x, pairwise_put x ascending⟩

theorem find?_insert (sorted : s.Sorted) (x y : α) :
    (s.insert x).1.find? y = if cmp x y = .eq then some x else s.find? y := by
  obtain ⟨xs, lists, ascending⟩ := sorted
  rw [find?_eq (insert_lists lists ascending x) (pairwise_put x ascending), find?_eq lists ascending,
    find?_put x y ascending]

end LongestMatch.OrderedSet
