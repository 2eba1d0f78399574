import Mathlib.Order.Bounds.Basic
import Mathlib.Order.MinMax
import SeededChoice.Scalar

/-!
# Extremes

Where scalars stand for the elements of a linear order, the largest of a list of them stands for the
maximum, and the smallest for the minimum. Neither depends on the order of the list.
-/

namespace SeededChoice.Scalar

variable {M : Type} [LinearOrder M] {x y : M} {rest others : List M}

theorem isGreatest_foldl_max (x : M) (rest : List M) :
    IsGreatest {z | z ∈ x :: rest} (rest.foldl max x) :=
  List.max?_eq_some_iff.mp List.max?_cons'

theorem isLeast_foldl_min (x : M) (rest : List M) :
    IsLeast {z | z ∈ x :: rest} (rest.foldl min x) :=
  List.min?_eq_some_iff.mp List.min?_cons'

theorem foldl_max_eq_of_perm (perm : (x :: rest).Perm (y :: others)) :
    rest.foldl max x = others.foldl max y := by
  have same : {z | z ∈ x :: rest} = {z | z ∈ y :: others} := Set.ext fun z => perm.mem_iff
  exact (same ▸ isGreatest_foldl_max x rest).unique (isGreatest_foldl_max y others)

theorem foldl_min_eq_of_perm (perm : (x :: rest).Perm (y :: others)) :
    rest.foldl min x = others.foldl min y := by
  have same : {z | z ∈ x :: rest} = {z | z ∈ y :: others} := Set.ext fun z => perm.mem_iff
  exact (same ▸ isLeast_foldl_min x rest).unique (isLeast_foldl_min y others)

variable {α : Type} [Scalar α] {f : M → α} (faithful : ∀ x y, f x < f y ↔ x < y)
include faithful

theorem largest_map (x : M) (rest : List M) :
    largest (f x) (rest.map f) = f (rest.foldl max x) := by
  induction rest generalizing x with
  | nil => rfl
  | cons y rest ih =>
    rw [List.foldl_cons, ← ih, max_def_lt, apply_ite f, ← if_congr (faithful x y) rfl rfl]
    rfl

theorem smallest_map (x : M) (rest : List M) :
    smallest (f x) (rest.map f) = f (rest.foldl min x) := by
  induction rest generalizing x with
  | nil => rfl
  | cons y rest ih =>
    rw [List.foldl_cons, ← ih, min_comm, min_def_lt, apply_ite f,
      ← if_congr (faithful y x) rfl rfl]
    rfl

end SeededChoice.Scalar
