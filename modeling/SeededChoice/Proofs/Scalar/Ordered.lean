import SeededChoice.Scalar.Sum
import SeededChoice.Stream

/-!
# Ordered scalars

The laws of order that rounding keeps. A sum of numbers that are not negative is at least each of
them, in whichever order they are added, and a part of a total is a number again.
-/

namespace SeededChoice

/-- A scalar whose rounding keeps order. Infinities are ordered too, as sums may overflow. -/
class OrderedScalar (α : Type) [Scalar α] : Prop where
  lt_irrefl (x : α) : ¬ x < x
  le_self {x : α} : 0 ≤ x → x ≤ x
  le_trans {x y z : α} : x ≤ y → y ≤ z → x ≤ z
  lt_of_lt_of_le {x y z : α} : x < y → y ≤ z → x < z
  le_of_not_lt {x y : α} :
    Scalar.isFinite x = true → Scalar.isFinite y = true → ¬ y < x → x ≤ y
  isFinite_zero : Scalar.isFinite (0 : α) = true
  isFinite_one : Scalar.isFinite (1 : α) = true
  zero_le_one : (0 : α) ≤ 1
  le_add_right {x y : α} : 0 ≤ x → 0 ≤ y → x ≤ x + y
  le_add_left {x y : α} : 0 ≤ x → 0 ≤ y → y ≤ x + y
  div_total {x total : α} : 0 ≤ x → x ≤ total → Scalar.isFinite total = true → ¬ total ≤ 0 →
    Scalar.isFinite (x / total) = true ∧ 0 ≤ x / total
  toUnit_lt_one {draw : Nat} : draw < Stream.resolution → (Stream.toUnit draw : α) < 1

/-- An ordered scalar in which less and equal are parts of at most. -/
class ComparableScalar (α : Type) [Scalar α] : Prop extends OrderedScalar α where
  le_of_lt {x y : α} : x < y → x ≤ y
  le_of_beq {x y : α} : (x == y) = true → x ≤ y

/-- A scalar that is equal to zero where it is neither below nor above it. -/
class DefiniteScalar (α : Type) [Scalar α] : Prop where
  beq_zero {x : α} : 0 ≤ x → ¬ 0 < x → (x == 0) = true

/-- A comparable scalar in which a share of a number is a number again, nothing taken from a number
leaves it as it is, and a number over itself, which is undefined if that is infinite, scales nothing
down. -/
class ProportionalScalar (α : Type) [Scalar α] : Prop extends ComparableScalar α where
  share {x : α} {n : Nat} : Scalar.isFinite x = true → 0 ≤ x → 0 < n →
    Scalar.isFinite (x / Scalar.ofNat n) = true ∧ 0 ≤ x / Scalar.ofNat n
  sub_none {x total : α} : Scalar.isFinite x = true → 0 < total →
    total - x * Scalar.ofNat 0 = total
  not_scaled_lt {x total : α} : Scalar.isFinite x = true → 0 ≤ x → 0 < total →
    ¬ x * (total / total) < x

namespace Scalar

open OrderedScalar

variable {α : Type} [Scalar α]

/-- Numbers that are not negative, some of them at least any given one. -/
def Dominates (ys xs : List α) : Prop := (∀ y ∈ ys, 0 ≤ y) ∧ ∀ x ∈ xs, ∃ y ∈ ys, x ≤ y

section
variable {xs ys us vs : List α}

theorem Dominates.of_subset (above : Dominates ys xs) (less : ∀ u ∈ us, u ∈ xs) :
    Dominates ys us :=
  ⟨above.1, fun u member => above.2 u (less u member)⟩

theorem Dominates.append (left : Dominates ys xs) (right : Dominates vs us) :
    Dominates (ys ++ vs) (xs ++ us) := by
  constructor
  · intro v member
    rcases List.mem_append.mp member with early | late
    · exact left.1 v early
    · exact right.1 v late
  · intro u member
    rcases List.mem_append.mp member with early | late
    · obtain ⟨v, listed, under⟩ := left.2 u early
      exact ⟨v, List.mem_append_left _ listed, under⟩
    · obtain ⟨v, listed, under⟩ := right.2 u late
      exact ⟨v, List.mem_append_right _ listed, under⟩

theorem length_addPairs (xs : List α) : (addPairs xs).length = (xs.length + 1) / 2 := by
  fun_induction addPairs xs with
  | case1 a b rest ih =>
    simp only [List.length_cons, ih]
    omega
  | case2 rest short =>
    match rest, short with
    | [], _ => simp
    | [a], _ => simp
    | a :: b :: rest, short => exact absurd rfl (short a b rest)

theorem length_addRow {lanes row : List α} (same : lanes.length = row.length) :
    (lanes.zipWith (· + ·) row).length = lanes.length := by
  rw [List.length_zipWith, same, Nat.min_self]

end

variable [OrderedScalar α] {x y acc : α} {xs ys zs : List α}

theorem zero_le_zero : (0 : α) ≤ 0 := le_of_not_lt isFinite_zero isFinite_zero (lt_irrefl 0)

theorem not_lt_of_le (less : x ≤ y) : ¬ y < x := fun more =>
  lt_irrefl _ (lt_of_lt_of_le more less)

theorem zero_le_add (left : 0 ≤ x) (right : 0 ≤ y) : 0 ≤ x + y :=
  le_trans left (le_add_right left right)

theorem Dominates.refl (natural : ∀ x ∈ xs, 0 ≤ x) : Dominates xs xs :=
  ⟨natural, fun x member => ⟨x, member, le_self (natural x member)⟩⟩

theorem Dominates.trans (above : Dominates zs ys) (below : Dominates ys xs) : Dominates zs xs := by
  refine ⟨above.1, fun x member => ?_⟩
  obtain ⟨y, listed, first⟩ := below.2 x member
  obtain ⟨z, last, second⟩ := above.2 y listed
  exact ⟨z, last, le_trans first second⟩

/-! ### Sums -/

theorem add_dominates (left : 0 ≤ x) (right : 0 ≤ y) : Dominates [x + y] [x, y] := by
  refine ⟨by simpa using zero_le_add left right, ?_⟩
  simpa using ⟨le_add_right left right, le_add_left left right⟩

theorem foldl_dominates (start : 0 ≤ acc) (natural : ∀ x ∈ xs, 0 ≤ x) :
    Dominates [xs.foldl (· + ·) acc] (acc :: xs) := by
  induction xs generalizing acc with
  | nil => exact .refl (by simpa using start)
  | cons x rest ih =>
    obtain ⟨first, others⟩ := List.forall_mem_cons.mp natural
    exact (ih (zero_le_add start first) others).trans
      ((add_dominates start first).append (.refl others))

theorem addPairs_dominates (natural : ∀ x ∈ xs, 0 ≤ x) : Dominates (addPairs xs) xs := by
  fun_induction addPairs xs with
  | case1 a b rest ih =>
    simp only [List.forall_mem_cons] at natural
    obtain ⟨first, second, others⟩ := natural
    exact (add_dominates first second).append (ih others)
  | case2 rest => exact .refl natural

theorem joinLanes_dominates (eight : xs.length = 8) (natural : ∀ x ∈ xs, 0 ≤ x) :
    Dominates [joinLanes xs] xs := by
  have four := addPairs_dominates natural
  have two := addPairs_dominates four.1
  have one := addPairs_dominates two.1
  have single : (addPairs (addPairs (addPairs xs))).length = 1 := by
    simp only [length_addPairs, eight]
  obtain ⟨total, joined⟩ := List.length_eq_one_iff.mp single
  rw [joinLanes, joined, List.headD_cons, ← joined]
  exact one.trans (two.trans four)

theorem addRow_dominates {lanes row : List α} (same : lanes.length = row.length)
    (left : ∀ x ∈ lanes, 0 ≤ x) (right : ∀ x ∈ row, 0 ≤ x) :
    Dominates (lanes.zipWith (· + ·) row) (lanes ++ row) := by
  induction lanes generalizing row with
  | nil =>
    obtain rfl := List.length_eq_zero_iff.mp same.symm
    exact .refl (by simp)
  | cons x lanes ih =>
    cases row with
    | nil => cases same
    | cons y row =>
      obtain ⟨leftFirst, leftOthers⟩ := List.forall_mem_cons.mp left
      obtain ⟨rightFirst, rightOthers⟩ := List.forall_mem_cons.mp right
      have rest := ih (Nat.succ.inj same) leftOthers rightOthers
      have whole := (add_dominates leftFirst rightFirst).append rest
      exact whole.of_subset (by grind)

theorem foldl_joinLanes_dominates {lanes : List α} (eight : lanes.length = 8)
    (left : ∀ x ∈ lanes, 0 ≤ x) (right : ∀ x ∈ xs, 0 ≤ x) :
    Dominates [xs.foldl (· + ·) (joinLanes lanes)] (lanes ++ xs) := by
  have joined := joinLanes_dominates eight left
  exact (foldl_dominates (joined.1 _ List.mem_cons_self) right).trans (joined.append (.refl right))

theorem addRows_dominates (rows : Nat) {lanes : List α} (eight : lanes.length = 8)
    (left : ∀ x ∈ lanes, 0 ≤ x) (right : ∀ x ∈ xs, 0 ≤ x) :
    Dominates [addRows rows lanes xs] (lanes ++ xs) := by
  induction rows generalizing lanes xs with
  | zero => exact foldl_joinLanes_dominates eight left right
  | succ rows ih =>
    rw [addRows]
    split
    · exact foldl_joinLanes_dominates eight left right
    · rename_i long
      have row : lanes.length = (xs.take 8).length := by
        rw [List.length_take]
        omega
      have taken : ∀ x ∈ xs.take 8, 0 ≤ x := fun x member => right x (List.mem_of_mem_take member)
      have dropped : ∀ x ∈ xs.drop 8, 0 ≤ x := fun x member => right x (List.mem_of_mem_drop member)
      have added := addRow_dominates row left taken
      have rest := ih ((length_addRow row).trans eight) added.1 dropped
      have whole := rest.trans (added.append (.refl dropped))
      rwa [List.append_assoc, List.take_append_drop] at whole

theorem blockSum_dominates (natural : ∀ x ∈ xs, 0 ≤ x) : Dominates [blockSum xs] xs := by
  rw [blockSum]
  split
  · have folded := foldl_dominates (zero_le_zero (α := α)) natural
    exact folded.of_subset fun u member => List.mem_cons_of_mem _ member
  · rename_i long
    have row : (xs.take 8).length = 8 := by
      rw [List.length_take]
      omega
    have taken : ∀ x ∈ xs.take 8, 0 ≤ x := fun x member => natural x (List.mem_of_mem_take member)
    have dropped : ∀ x ∈ xs.drop 8, 0 ≤ x := fun x member => natural x (List.mem_of_mem_drop member)
    have rows := addRows_dominates xs.length row taken dropped
    rwa [List.take_append_drop] at rows

theorem halvingSum_dominates (cuts : Nat) (natural : ∀ x ∈ xs, 0 ≤ x) :
    Dominates [halvingSum cuts xs] xs := by
  induction cuts generalizing xs with
  | zero => exact blockSum_dominates natural
  | succ cuts ih =>
    rw [halvingSum]
    split
    · exact blockSum_dominates natural
    · have left := ih fun x member =>
        natural x (List.mem_of_mem_take (i := splitPoint xs.length) member)
      have right := ih fun x member =>
        natural x (List.mem_of_mem_drop (i := splitPoint xs.length) member)
      have halves := add_dominates (left.1 _ List.mem_cons_self) (right.1 _ List.mem_cons_self)
      have whole := halves.trans (left.append right)
      rwa [List.take_append_drop] at whole

theorem sum_dominates (natural : ∀ x ∈ xs, 0 ≤ x) : Dominates [sum xs] xs := by
  have halves := halvingSum_dominates xs.length natural
  have start := add_dominates zero_le_zero (halves.1 _ List.mem_cons_self)
  exact (start.of_subset fun u listed => List.mem_cons_of_mem _ listed).trans halves

theorem zero_le_sum (natural : ∀ x ∈ xs, 0 ≤ x) : 0 ≤ sum xs :=
  (sum_dominates natural).1 _ List.mem_cons_self

/-- Among numbers that are not negative, each is at most their sum. -/
theorem le_sum (natural : ∀ x ∈ xs, 0 ≤ x) : ∀ x ∈ xs, x ≤ sum xs := by
  intro x member
  obtain ⟨y, same, more⟩ := (sum_dominates natural).2 x member
  rwa [← List.mem_singleton.mp same]

/-! ### Running sums -/

theorem le_runningSumsFrom (start : 0 ≤ acc) (natural : ∀ x ∈ xs, 0 ≤ x) :
    ∀ s ∈ runningSumsFrom acc xs, acc ≤ s := by
  induction xs generalizing acc with
  | nil => simp [runningSumsFrom]
  | cons x rest ih =>
    obtain ⟨first, others⟩ := List.forall_mem_cons.mp natural
    have more := le_add_right start first
    refine List.forall_mem_cons.mpr ⟨more, fun s member => ?_⟩
    exact le_trans more (ih (zero_le_add start first) others s member)

end Scalar

end SeededChoice
