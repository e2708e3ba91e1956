import Mathlib.Data.List.Perm.Basic
import LongestMatch.Ascending

namespace LongestMatch

abbrev Ascending (ns : List Nat) : Prop := ns.Pairwise (· < ·)

namespace Ascending

theorem mem_insert {n m : Nat} {ns : List Nat} : m ∈ insert n ns ↔ m ∈ ns ∨ m = n := by
  induction ns with
  | nil => simp [insert]
  | cons k ks ih =>
      rw [insert]
      split
      · simp [or_comm]
      · split
        · rename_i same
          simp only [same, List.mem_cons]
          exact ⟨.inl, fun member => member.elim id .inl⟩
        · simp [ih, or_assoc]

theorem pairwise_insert (n : Nat) {ns : List Nat} (ascending : Ascending ns) :
    Ascending (insert n ns) := by
  induction ns with
  | nil => simp [insert]
  | cons k ks ih =>
      obtain ⟨head, tail⟩ := List.pairwise_cons.1 ascending
      rw [insert]
      split
      · rename_i first
        refine List.pairwise_cons.2 ⟨fun m member => ?_, ascending⟩
        rcases List.mem_cons.1 member with rfl | member
        · exact first
        · exact Nat.lt_trans first (head m member)
      · split
        · exact ascending
        · refine List.pairwise_cons.2 ⟨fun m member => ?_, ih tail⟩
          rcases mem_insert.1 member with member | rfl
          · exact head m member
          · omega

theorem mem_insertAll {m : Nat} {ns more : List Nat} : m ∈ insertAll ns more ↔ m ∈ ns ∨ m ∈ more := by
  induction more generalizing ns with
  | nil => simp [insertAll]
  | cons n more ih =>
      rw [insertAll, List.foldl_cons, ← insertAll, ih, mem_insert, List.mem_cons, or_assoc]

theorem pairwise_insertAll {ns : List Nat} (more : List Nat) (ascending : Ascending ns) :
    Ascending (insertAll ns more) := by
  induction more generalizing ns with
  | nil => exact ascending
  | cons n more ih => exact ih (pairwise_insert n ascending)

theorem eq_of_mem_iff {ns ms : List Nat} (ascending : Ascending ns)
    (ascending' : Ascending ms) (same : ∀ n, n ∈ ns ↔ n ∈ ms) : ns = ms := by
  have distinct : ∀ {l : List Nat}, Ascending l → l.Nodup := fun sorted =>
    sorted.imp Nat.ne_of_lt
  exact ((List.perm_ext_iff_of_nodup (distinct ascending) (distinct ascending')).2 same).eq_of_pairwise
    (fun _ _ _ _ first second => (Nat.lt_asymm first second).elim) ascending ascending'

end Ascending

end LongestMatch
