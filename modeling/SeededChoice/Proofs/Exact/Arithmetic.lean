import Mathlib.Analysis.SpecialFunctions.Exp
import SeededChoice.Decimal.Figure
import SeededChoice.Scalar

/-!
# Exact arithmetic

`Exact` extends the real numbers by the special values of number formats. Finite numbers are added,
multiplied and compared without rounding, and an infinity or an undefined result is what it is in
every binary format. A law of exact arithmetic is a law of this scalar.
-/

namespace SeededChoice

/-- An exponential, of which only its sign and its value at zero are known. -/
class Exponential where
  exp : ℝ → ℝ
  exp_zero : exp 0 = 1
  exp_pos : ∀ x, 0 < exp x

noncomputable instance : Exponential := ⟨Real.exp, Real.exp_zero, Real.exp_pos⟩

/-- A real number, or a special value. -/
inductive Exact where
  | nan
  | infinite (negative : Bool)
  | finite (x : ℝ)

namespace Exact

noncomputable section

def neg : Exact → Exact
  | nan => nan
  | infinite n => infinite (!n)
  | finite x => finite (-x)

/-- Opposite infinities have no sum. -/
def add : Exact → Exact → Exact
  | finite x, finite y => finite (x + y)
  | nan, _ | _, nan => nan
  | infinite m, infinite n => if m = n then infinite m else nan
  | infinite n, finite _ | finite _, infinite n => infinite n

/-- An infinity times a finite number: zero leaves it undefined. -/
def scaleInfinity (negative : Bool) (x : ℝ) : Exact :=
  if 0 < x then infinite negative else if x < 0 then infinite (!negative) else nan

def mul : Exact → Exact → Exact
  | finite x, finite y => finite (x * y)
  | nan, _ | _, nan => nan
  | infinite m, infinite n => infinite (m != n)
  | infinite n, finite x | finite x, infinite n => scaleInfinity n x

/-- A quotient by zero is infinite, or undefined for zero itself. -/
def div : Exact → Exact → Exact
  | finite x, finite y => if y = 0 then scaleInfinity false x else finite (x / y)
  | nan, _ | _, nan => nan
  | infinite _, infinite _ => nan
  | finite _, infinite _ => finite 0
  | infinite n, finite y => if y < 0 then infinite (!n) else infinite n

def lt : Exact → Exact → Bool
  | finite x, finite y => decide (x < y)
  | nan, _ | _, nan => false
  | infinite m, infinite n => m && !n
  | infinite m, finite _ => m
  | finite _, infinite n => !n

def beq : Exact → Exact → Bool
  | finite x, finite y => decide (x = y)
  | infinite m, infinite n => m == n
  | _, _ => false

variable [Exponential]

instance : Scalar (Exact) where
  add := add
  sub x y := add x (neg y)
  mul := mul
  div := div
  neg := neg
  zero := finite 0
  one := finite 1
  lt x y := lt x y = true
  le x y := (lt x y || beq x y) = true
  beq := beq
  decLt _ _ := inferInstanceAs (Decidable (_ = true))
  decLe _ _ := inferInstanceAs (Decidable (_ = true))
  nan := nan
  ofNat n := finite n
  ofInt? n := some (finite n)
  truncate?
    | finite x => some (if 0 ≤ x then ⌊x⌋ else ⌈x⌉)
    | _ => none
  isFinite
    | finite _ => true
    | _ => false
  exp
    | nan => nan
    | infinite negative => if negative then finite 0 else infinite false
    | finite x => finite (Exponential.exp x)
  -- Between two numbers there are others, so that no number has a neighbour.
  stepToward x _ := x
  toSingle x := x

/-! ### Finite numbers -/

variable (x y : ℝ)

theorem zero_eq : (0 : Exact) = finite 0 := rfl

theorem one_eq : (1 : Exact) = finite 1 := rfl

theorem ofNat_eq (n : Nat) : (Scalar.ofNat n : Exact) = finite (n : ℝ) := rfl

@[simp] theorem finite_add : finite x + finite y = finite (x + y) := rfl

@[simp] theorem finite_sub : finite x - finite y = finite (x - y) := by
  rw [sub_eq_add_neg]
  rfl

@[simp] theorem finite_mul : finite x * finite y = finite (x * y) := rfl

theorem finite_div {y : ℝ} (nonzero : y ≠ 0) : finite x / finite y = finite (x / y) :=
  if_neg nonzero

/-- A list of finite numbers over a number other than zero. -/
theorem map_div_finite (xs : List ℝ) {y : ℝ} (nonzero : y ≠ 0) :
    (xs.map finite).map (· / finite y) = (xs.map (· / y)).map finite := by
  rw [List.map_map, List.map_map]
  exact List.map_congr_left fun x _ => finite_div x nonzero

@[simp] theorem finite_lt : finite x < finite y ↔ x < y := decide_eq_true_iff

@[simp] theorem finite_le : finite x ≤ finite y ↔ x ≤ y := by
  show (decide (x < y) || decide (x = y)) = true ↔ x ≤ y
  rw [Bool.or_eq_true, decide_eq_true_iff, decide_eq_true_iff, le_iff_lt_or_eq]

@[simp] theorem finite_beq : (finite x == finite y) = decide (x = y) := rfl

@[simp] theorem finite_bne : (finite x != finite y) = decide (x ≠ y) := by
  rw [bne, finite_beq, decide_not]

@[simp] theorem isFinite_finite : Scalar.isFinite (finite x) = true := rfl

@[simp] theorem isNaN_finite : Scalar.isNaN (finite x) = false := by
  simp [Scalar.isNaN]

theorem isFinite_iff (v : Exact) : Scalar.isFinite v = true ↔ ∃ x, v = finite x := by
  constructor
  · intro h
    cases v with
    | finite x => exact ⟨x, rfl⟩
    | nan => exact absurd h Bool.false_ne_true
    | infinite n => exact absurd h Bool.false_ne_true
  · rintro ⟨x, rfl⟩
    rfl

/-- A list of finite numbers, by the numbers. -/
theorem all_isFinite_iff (vs : List (Exact)) :
    vs.all Scalar.isFinite = true ↔ ∃ xs : List ℝ, vs = xs.map finite := by
  rw [List.all_eq_true]
  constructor
  · intro each
    induction vs with
    | nil => exact ⟨[], rfl⟩
    | cons v rest ih =>
      obtain ⟨x, rfl⟩ := (isFinite_iff v).mp (each _ List.mem_cons_self)
      obtain ⟨xs, rfl⟩ := ih fun u member => each u (List.mem_cons_of_mem _ member)
      exact ⟨x :: xs, rfl⟩
  · rintro ⟨xs, rfl⟩ v member
    obtain ⟨x, -, rfl⟩ := List.mem_map.mp member
    rfl

theorem inUnitInterval_iff (v : Exact) :
    Scalar.inUnitInterval v = true ↔ ∃ x, v = finite x ∧ 0 ≤ x ∧ x ≤ 1 := by
  rw [Scalar.inUnitInterval, zero_eq, one_eq, Bool.and_eq_true, Bool.and_eq_true, isFinite_iff]
  constructor
  · rintro ⟨⟨⟨x, rfl⟩, least⟩, most⟩
    exact ⟨x, rfl, (finite_le _ _).mp (of_decide_eq_true least),
      (finite_le _ _).mp (of_decide_eq_true most)⟩
  · rintro ⟨x, rfl, least, most⟩
    exact ⟨⟨⟨x, rfl⟩, decide_eq_true ((finite_le _ _).mpr least)⟩,
      decide_eq_true ((finite_le _ _).mpr most)⟩

theorem positivePart_finite : Scalar.positivePart (finite x) = finite (max x 0) := by
  rw [Scalar.positivePart, zero_eq]
  split
  · rename_i negative
    rw [max_eq_right (le_of_lt ((finite_lt _ _).mp negative))]
  · rename_i natural
    rw [max_eq_left (le_of_not_gt fun less => natural ((finite_lt _ _).mpr less))]

/-! ### Figures -/

def ofFigure : Figure → Exact
  | .nan => nan
  | .infinite negative => infinite negative
  | .finite negative digits exponent =>
    finite ((if negative then -(digits : ℝ) else digits) * 10 ^ exponent)

def toPlaces (places : Nat) : Exact → Figure
  | nan => .nan
  | infinite negative => .infinite negative
  | finite x => .finite (decide (x < 0)) (round (|x| * 10 ^ places)).toNat (-places)

/-- The figure of fewest places that stands for the number, if there is one. -/
def shortest (v : Exact) : Figure := toPlaces (sInf {places | ofFigure (toPlaces places v) = v}) v

instance : Numeral Exact := ⟨ofFigure, shortest, toPlaces⟩

end

end Exact

end SeededChoice
