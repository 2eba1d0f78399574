import Mathlib.Data.List.Nodup

/-!
# Sorted lists

A list of keys, sorted: what is in it does not depend on the order in which the keys came, and keys
that are all different ascend strictly.
-/

namespace SeededChoice

variable {κ : Type} [LE κ] [LT κ] [DecidableLE κ] [Std.IsLinearOrder κ] [Std.LawfulOrderLT κ]

omit [LT κ] [Std.LawfulOrderLT κ] in
theorem pairwise_le_mergeSort (keys : List κ) :
    (keys.mergeSort fun a b => decide (a ≤ b)).Pairwise (· ≤ ·) := by
  have sorted : (keys.mergeSort fun a b => decide (a ≤ b)).Pairwise
      fun a b => decide (a ≤ b) = true := by
    apply List.pairwise_mergeSort
    · intro a b c first second
      exact decide_eq_true (Std.le_trans (of_decide_eq_true first) (of_decide_eq_true second))
    · intro a b
      simpa using Std.le_total
  exact sorted.imp of_decide_eq_true

theorem pairwise_lt_mergeSort {keys : List κ} (distinct : keys.Nodup) :
    (keys.mergeSort fun a b => decide (a ≤ b)).Pairwise (· < ·) := by
  have apart := (keys.mergeSort_perm fun a b => decide (a ≤ b)).nodup_iff.mpr distinct
  exact ((pairwise_le_mergeSort keys).and apart).imp fun ⟨le, ne⟩ => Std.lt_of_le_of_ne le ne

omit [LT κ] [Std.LawfulOrderLT κ] in
/-- The same keys sort to the same list. -/
theorem mergeSort_eq_of_perm {keys others : List κ} (perm : keys.Perm others) :
    (keys.mergeSort fun a b => decide (a ≤ b)) = others.mergeSort fun a b => decide (a ≤ b) := by
  refine List.Perm.eq_of_pairwise (fun a b _ _ first second => Std.le_antisymm first second)
    (pairwise_le_mergeSort keys) (pairwise_le_mergeSort others) ?_
  exact ((keys.mergeSort_perm _).trans perm).trans (others.mergeSort_perm _).symm

end SeededChoice
