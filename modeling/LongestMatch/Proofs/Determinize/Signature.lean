import Mathlib.Logic.Function.Basic
import LongestMatch.Closure

namespace LongestMatch

theorem toList_signature (nodes : List NodeId) :
    (signature nodes).toList = [','].intercalate (nodes.map (Nat.toDigits 10)) := by
  rw [signature, String.toList_intercalate, List.map_map]
  exact congrArg _ (List.map_congr_left fun n _ => Nat.toList_repr)

theorem comma_notMem_toDigits (n : Nat) : ',' ∉ Nat.toDigits 10 n := fun member =>
  absurd (Nat.isDigit_of_mem_toDigits (by decide) (by decide) member) (by decide)

theorem splitOn_signature (nodes : List NodeId) :
    (signature nodes).toList.splitOn ',' =
      if nodes = [] then [[]] else nodes.map (Nat.toDigits 10) := by
  rw [toList_signature]
  split
  · rename_i none
    subst none
    rfl
  · rename_i some
    refine List.splitOn_intercalate ',' (fun digits member => ?_) (by simpa using some)
    obtain ⟨n, _, rfl⟩ := List.mem_map.1 member
    exact comma_notMem_toDigits n

theorem toDigits_injective : Function.Injective (Nat.toDigits 10) :=
  Function.LeftInverse.injective fun _ => Nat.ofDigitChars_ten_toDigits

theorem signature_injective : Function.Injective signature := by
  intro nodes nodes' same
  have pieces := splitOn_signature nodes
  rw [same, splitOn_signature] at pieces
  have some : ∀ {n : Nat} {ns : List Nat}, [[]] ≠ (n :: ns).map (Nat.toDigits 10) := by
    intro n ns equal
    exact Nat.toDigits_ne_nil (List.cons.inj equal).1.symm
  cases nodes with
  | nil =>
      cases nodes' with
      | nil => rfl
      | cons n ns => exact (some pieces.symm).elim
  | cons n ns =>
      cases nodes' with
      | nil => exact (some pieces).elim
      | cons m ms => exact ((List.map_inj_right fun _ _ equal => toDigits_injective equal).1 pieces).symm

end LongestMatch
