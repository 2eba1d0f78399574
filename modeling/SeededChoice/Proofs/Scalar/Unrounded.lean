import Mathlib.Algebra.BigOperators.Group.List.Basic
import Mathlib.Data.List.Induction
import SeededChoice.Scalar.Sum

/-!
# Sums without rounding

Where scalars stand for the elements of a monoid and their sums are not rounded, the order of
addition does not matter: the pairwise sum and the running sums are those of the elements. Rounding
may still begin beyond a bound, as it does for whole numbers in a format of limited width.
-/

namespace SeededChoice.Scalar

variable {α : Type} [Scalar α] {M : Type} [AddCommMonoid M] {f : M → α} {held : M → Prop}

/-- The scalars that `f` makes are added without rounding, as long as the sum is held. -/
structure AddsExactly (f : M → α) (held : M → Prop) : Prop where
  zero : f 0 = 0
  add {a b : M} : held (a + b) → f a + f b = f (a + b)
  part {a b : M} : held (a + b) → held a

namespace AddsExactly

variable (adds : AddsExactly f held)
include adds

theorem rest {a b : M} (whole : held (a + b)) : held b := adds.part (add_comm a b ▸ whole)

theorem foldl {acc : M} {xs : List M} (whole : held (acc + xs.sum)) :
    (xs.map f).foldl (· + ·) (f acc) = f (acc + xs.sum) := by
  induction xs generalizing acc with
  | nil => rw [List.map_nil, List.foldl_nil, List.sum_nil, add_zero]
  | cons x rest ih =>
    rw [List.sum_cons, ← add_assoc] at whole ⊢
    rw [List.map_cons, List.foldl_cons, adds.add (adds.part whole), ih whole]

theorem sumInOrder {xs : List M} (whole : held xs.sum) :
    Scalar.sumInOrder (xs.map f) = f xs.sum := by
  rw [Scalar.sumInOrder, ← adds.zero, adds.foldl (by rwa [zero_add]), zero_add]

/-! ### Pairwise sums -/

/-- Adding neighbours keeps the sum and halves the length. -/
theorem addPairs {xs : List M} (whole : held xs.sum) : ∃ ys : List M,
    Scalar.addPairs (xs.map f) = ys.map f ∧ ys.sum = xs.sum ∧ ys.length = (xs.length + 1) / 2 := by
  induction xs using List.twoStepInduction with
  | nil => exact ⟨[], rfl, rfl, by simp⟩
  | singleton x => exact ⟨[x], rfl, rfl, by simp⟩
  | cons_cons x y rest ih =>
    rw [List.sum_cons, List.sum_cons, ← add_assoc] at whole ⊢
    obtain ⟨ys, pairs, total, size⟩ := ih (adds.rest whole)
    refine ⟨(x + y) :: ys, ?_, ?_, ?_⟩
    · rw [List.map_cons, List.map_cons, Scalar.addPairs, pairs, adds.add (adds.part whole),
        List.map_cons]
    · rw [List.sum_cons, total]
    · simp only [List.length_cons, size]
      omega

theorem joinLanes {lanes : List M} (eight : lanes.length = 8) (whole : held lanes.sum) :
    Scalar.joinLanes (lanes.map f) = f lanes.sum := by
  obtain ⟨four, pairs4, total4, size4⟩ := adds.addPairs whole
  rw [← total4] at whole
  obtain ⟨two, pairs2, total2, size2⟩ := adds.addPairs whole
  rw [← total2] at whole
  obtain ⟨one, pairs1, total1, size1⟩ := adds.addPairs whole
  have single : one.length = 1 := by omega
  obtain ⟨x, rfl⟩ := List.length_eq_one_iff.mp single
  rw [Scalar.joinLanes, pairs4, pairs2, pairs1, ← total4, ← total2, ← total1, List.sum_singleton]
  rfl

theorem addRow {lanes row : List M} (same : lanes.length = row.length)
    (whole : held (lanes.sum + row.sum)) :
    (lanes.map f).zipWith (· + ·) (row.map f) = (lanes.zipWith (· + ·) row).map f := by
  induction lanes generalizing row with
  | nil => rfl
  | cons x lanes ih =>
    cases row with
    | nil => cases same
    | cons y row =>
      rw [List.sum_cons, List.sum_cons, add_add_add_comm] at whole
      have others := ih (Nat.succ.inj same) (adds.rest whole)
      simp only [List.map_cons, List.zipWith_cons_cons, adds.add (adds.part whole), others]

theorem addRows {rows : Nat} {lanes xs : List M} (eight : lanes.length = 8)
    (whole : held (lanes.sum + xs.sum)) :
    Scalar.addRows rows (lanes.map f) (xs.map f) = f (lanes.sum + xs.sum) := by
  induction rows generalizing lanes xs with
  | zero => rw [Scalar.addRows, adds.joinLanes eight (adds.part whole), adds.foldl whole]
  | succ rows ih =>
    rw [Scalar.addRows]
    split
    · rw [adds.joinLanes eight (adds.part whole), adds.foldl whole]
    · rename_i long
      rw [List.length_map] at long
      have row : lanes.length = (xs.take 8).length := by
        rw [List.length_take]
        omega
      have sums : lanes.sum + xs.sum =
          (lanes.zipWith (· + ·) (xs.take 8)).sum + (xs.drop 8).sum := by
        rw [← List.sum_add_sum_eq_sum_zipWith_of_length_eq _ _ row, add_assoc,
          List.sum_take_add_sum_drop]
      have added := whole
      rw [← List.sum_take_add_sum_drop xs 8, ← add_assoc] at added
      rw [← List.map_take, ← List.map_drop, adds.addRow row (adds.part added), sums]
      exact ih (by rw [List.length_zipWith, ← row, eight, Nat.min_self]) (sums ▸ whole)

theorem blockSum {xs : List M} (whole : held xs.sum) : Scalar.blockSum (xs.map f) = f xs.sum := by
  rw [Scalar.blockSum]
  split
  · exact adds.sumInOrder whole
  · rename_i long
    rw [List.length_map] at long
    have row : (xs.take 8).length = 8 := by
      rw [List.length_take]
      omega
    rw [← List.sum_take_add_sum_drop xs 8] at whole ⊢
    rw [← List.map_take, ← List.map_drop, adds.addRows row whole]

theorem halvingSum {cuts : Nat} {xs : List M} (whole : held xs.sum) :
    Scalar.halvingSum cuts (xs.map f) = f xs.sum := by
  induction cuts generalizing xs with
  | zero => exact adds.blockSum whole
  | succ cuts ih =>
    rw [Scalar.halvingSum]
    split
    · exact adds.blockSum whole
    · rw [List.length_map, ← List.map_take, ← List.map_drop]
      rw [← List.sum_take_add_sum_drop xs (splitPoint xs.length)] at whole ⊢
      rw [ih (adds.part whole), ih (adds.rest whole), adds.add whole]

theorem sum {xs : List M} (whole : held xs.sum) : Scalar.sum (xs.map f) = f xs.sum := by
  rw [Scalar.sum, adds.halvingSum whole, ← adds.zero, adds.add (by rwa [zero_add]), zero_add]

/-! ### Running sums -/

theorem getElem?_runningSums {xs : List M} {i : Nat} (inside : i < xs.length)
    (whole : held xs.sum) :
    (runningSums (xs.map f))[i]? = some (f (xs.take (i + 1)).sum) := by
  cases xs with
  | nil => exact absurd inside (Nat.not_lt_zero i)
  | cons x rest =>
    rw [List.map_cons, runningSums]
    cases i with
    | zero => simp
    | succ i =>
      have part : i < (rest.map f).length := by simpa using inside
      rw [List.sum_cons, ← List.sum_take_add_sum_drop rest (i + 1), ← add_assoc] at whole
      rw [List.getElem?_cons_succ, getElem?_runningSumsFrom _ part, ← List.map_take,
        adds.foldl (adds.part whole), List.take_succ_cons, List.sum_cons]

end AddsExactly

/-! ### Whole numbers -/

/-- Whole numbers up to `most` are scalars, and are added without rounding. -/
structure CountsTo (α : Type) [Scalar α] (most : Nat) : Prop where
  adds : AddsExactly (ofNat : Nat → α) (· ≤ most)
  ofInt? {n : Nat} : n ≤ most → Scalar.ofInt? (n : Int) = some (ofNat n : α)
  finite {n : Nat} : n ≤ most → isFinite (ofNat n : α) = true
  natural {n : Nat} : n ≤ most → ¬ (ofNat n : α) < 0
  positive {n : Nat} : 0 < n → n ≤ most → ((ofNat n : α) == 0) = false

end SeededChoice.Scalar
