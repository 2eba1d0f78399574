import SeededChoice.Proofs.Double.Neighbours
import SeededChoice.Proofs.Double.Overflow
import SeededChoice.Proofs.Sampler.Agreement

/-!
# Doubles from a range

In doubles the width of a range may overflow. A number from the range is then still in it, because
what goes past the end is taken back, unless an infinite width is multiplied by zero.
-/

namespace SeededChoice

open Double Scalar HasValue

theorem Stream.within_toUnit {α : Type} [Scalar α] [HasValue α] [NearestScalar α] {draw : Nat}
    (small : draw < resolution) : Within 1 (toUnit draw : α) := by
  have size : resolution ≤ 2 ^ 23 := by decide
  have whole := within_ofNat (α := α) (small.le.trans size) (by norm_num)
  have parts := within_ofNat (α := α) size (by norm_num)
  have positive := zero_lt_one.trans_le (one_le_ofNat (α := α) (by decide) size (by norm_num))
  exact Within.over ⟨whole.finite, whole.least, value_ofNat_le small.le size (by norm_num)⟩
    parts.finite positive

theorem Double.quotient_pos {n : Nat} (positive : 0 < n) (small : n < 2 ^ 23) :
    0 < Double.value (Double.ofNat n / Double.ofNat (2 ^ 23)).toModel.unpack := by
  obtain ⟨result, divided⟩ := ofNat_div positive small
  have above := result.pos
  rw [divided, unpack_ofNormal, Double.value, Float.Model.UnpackedFloat.Sign.apply]
  positivity

theorem Stream.toUnit_pos {draw : Nat} (positive : 0 < draw) (small : draw < 2 ^ 23) :
    0 < value (toUnit draw : Float) := quotient_pos positive small

namespace Sampler

/-! ### Steps into a range -/

theorem no_steps : (Scalar.ofNat 0 + Stream.toUnit 0 : Float) = Zero.zero := by decide +kernel

section
variable {i draw : Nat} (size : i ≤ 2 ^ 64) (small : draw < 2 ^ 23)
include size small

theorem within_steps : Within (2 ^ 65) (Scalar.ofNat i + Stream.toUnit draw : Float) := by
  have whole := within_ofNat (α := Float) size (by norm_num)
  have part := (Stream.within_toUnit (α := Float) small).mono (one_le_pow₀ (n := 64) one_le_two)
  have twice : (2 : ℝ) * 2 ^ 64 = 2 ^ 65 := by norm_num
  rw [← twice]
  apply whole.add part
  · rw [twice]
    exact .two_pow (by norm_num)
  · rw [twice]
    exact two_pow_le_limit (by norm_num)

theorem steps_pos_iff :
    0 < value (Scalar.ofNat i + Stream.toUnit draw : Float) ↔ i ≠ 0 ∨ draw ≠ 0 := by
  have whole := within_ofNat (α := Float) size (by norm_num)
  have part := Stream.within_toUnit (α := Float) small
  have total := within_steps size small
  constructor
  · contrapose!
    rintro ⟨rfl, rfl⟩
    rw [no_steps]
    exact (NearestScalar.value_zero (α := Float)).le
  · rintro (nonzero | nonzero)
    · have more := OrderedScalar.le_add_right whole.natural part.natural
      rw [NearestScalar.le_iff whole.finite total.finite] at more
      exact (zero_lt_one.trans_le
        (one_le_ofNat (Nat.pos_of_ne_zero nonzero) size (by norm_num))).trans_le more
    · have more := OrderedScalar.le_add_left whole.natural part.natural
      rw [NearestScalar.le_iff part.finite total.finite] at more
      exact (Stream.toUnit_pos (Nat.pos_of_ne_zero nonzero) small).trans_le more

end

/-! ### Places -/

/-- A finite double from the range between two others, which ends before the second. -/
structure Inside (l h x : Float) : Prop where
  finite : Scalar.isFinite x = true
  least : l ≤ x
  most : x < h

/-- An infinite width, and not a single step or part of one. -/
def Undefined (l h : Float) (i draw : Nat) : Prop :=
  Scalar.isFinite (h - l) = false ∧ i = 0 ∧ draw = 0

/-- What lies past the end is taken back into the range, also from infinity. -/
theorem inside_taken_back {l h p : Float} (lower : Scalar.isFinite l = true)
    (upper : Scalar.isFinite h = true) (less : l < h) (natural : Natural p.toModel.unpack) :
    Inside l h (if h ≤ l + p then Scalar.stepToward h l else l + p) := by
  have above := le_add_natural lower natural
  split
  · obtain ⟨finite, least, most⟩ := stepToward_between upper lower less
    exact ⟨finite, least, most⟩
  · rename_i short
    have below : l + p < h := by
      have number := ((le_iff_rank _ _).mp ((le_iff _ _).mp above)).2.1
      have bound := (reduced_of_isFinite upper).number
      rw [le_iff, le_iff_rank] at short
      rw [lt_iff, lt_iff_rank]
      exact ⟨number, bound, not_le.mp fun more => short ⟨bound, number, more⟩⟩
    have most := ComparableScalar.le_of_lt below
    exact ⟨NearestScalar.isFinite_between lower upper above most, above, below⟩

section
variable {l h : Float} {n i draw : Nat} (lower : Scalar.isFinite l = true)
  (upper : Scalar.isFinite h = true) (less : l < h) (positive : 0 < n) (buckets : n ≤ 2 ^ 64)
  (size : i ≤ 2 ^ 64) (small : draw < 2 ^ 23)

include lower upper less positive buckets in
/-- The width of a bucket is infinite where that of the range is. -/
theorem width_natural : Natural ((h - l) / Scalar.ofNat n).toModel.unpack ∧
    Scalar.isFinite ((h - l) / Scalar.ofNat n) = Scalar.isFinite (h - l) := by
  have divisor := within_ofNat (α := Float) buckets (by norm_num)
  have one := one_le_ofNat (α := Float) positive buckets (by norm_num)
  have width : Natural (h - l).toModel.unpack :=
    (sub_natural (reduced_of_isFinite upper) (reduced_of_isFinite lower)
      ((Scalar.lt_iff lower upper).mp less)).packed
  exact ⟨(div_natural width (reduced_of_isFinite divisor.finite) (zero_lt_one.trans_le one)).packed,
    isFinite_div width divisor.finite one⟩

include lower upper less positive buckets size small

theorem inside_place (defined : ¬ Undefined l h i draw) :
    Inside l h (place l h n i (Stream.toUnit draw)) := by
  obtain ⟨width, same⟩ := width_natural lower upper less positive buckets
  have steps := within_steps size small
  have natural := (natural_iff _).mp steps.natural
  apply inside_taken_back lower upper less
  refine (mul_natural natural steps.finite width ?_).packed
  cases bounded : Scalar.isFinite (h - l) with
  | true => exact Or.inl (same.trans bounded)
  | false =>
    right
    apply (steps_pos_iff size small).mpr
    by_contra first
    rw [not_or, not_not, not_not] at first
    exact defined ⟨bounded, first⟩

omit size small in
theorem isNaN_place (undefined : Undefined l h i draw) :
    Scalar.isNaN (place l h n i (Stream.toUnit draw)) = true := by
  obtain ⟨infinite, rfl, rfl⟩ := undefined
  obtain ⟨width, same⟩ := width_natural lower upper less positive buckets
  have steps : (Zero.zero * ((h - l) / Scalar.ofNat n) : Float).toModel.unpack = .notANumber := by
    show (Float.Model.pack (Float.Model.UnpackedFloat.mul _ (Zero.zero : Float).toModel.unpack
      ((h - l) / Scalar.ofNat n).toModel.unpack)).unpack = _
    rw [width.eq_infinity (same.trans infinite)]
    rfl
  have undefined : (l + Zero.zero * ((h - l) / Scalar.ofNat n)).toModel.unpack = .notANumber := by
    show (Float.Model.pack (Float.Model.UnpackedFloat.add _ l.toModel.unpack
      (Zero.zero * ((h - l) / Scalar.ofNat n) : Float).toModel.unpack)).unpack = _
    rw [steps, add_notANumber]
    rfl
  have short : ¬ h ≤ l + Zero.zero * ((h - l) / Scalar.ofNat n) := by
    rw [le_iff, le_iff_rank, undefined]
    exact fun more => more.2.1 rfl
  rw [place, no_steps]
  simp only [if_neg short]
  exact isNaN_of_unpack undefined

end

/-- What is known of a sampling from a range that has succeeded. -/
theorem inRange_success {α : Type} [Scalar α] {b : Buffer α} {seed : Seed} {low high : Argument α}
    {l h : α} {p : Planned (RangeSample α) α} (lower : low.toReal = .ok l)
    (upper : high.toReal = .ok h) (range : isRange l h = true)
    (planned : inRange seed low high b = .ok p) (succeeded : p.answer.status = .success) :
    ∃ start weights, start? seed b = some start ∧ bucketWeights? b = some weights ∧
      p.answer = {
        status := .success
        value := some (place l h b.length (Selection.select weights (Stream.uniformAt start 0))
          (Stream.uniformAt start 1))
        bucket := some (Selection.select weights (Stream.uniformAt start 0)) } := by
  have drawn : start? seed b ≠ none ∧ bucketWeights? b ≠ none := by
    by_contra refusal
    rw [not_and_or, not_not, not_not] at refusal
    cases planned.symm.trans (inRange_refused lower upper range refusal)
    cases succeeded
  obtain ⟨start, started⟩ := Option.ne_none_iff_exists'.mp drawn.1
  obtain ⟨weights, found⟩ := Option.ne_none_iff_exists'.mp drawn.2
  obtain rfl := Except.ok.inj
    (planned.symm.trans (inRange_drawn lower upper range started found))
  exact ⟨start, weights, started, found, rfl⟩

end Sampler

namespace Operation

/-- A number from a range of doubles is finite and inside the range, except that an infinite width
and a draw of zero in the first bucket make it not a number. -/
theorem in_range_iff {b : Buffer Float} {seed : Seed} {low high : Argument Float} {l h : Float}
    {r : RangeSample Float} (flat : b.rows = none) (buckets : b.length ≤ 2 ^ 64)
    (lower : low.toReal = .ok l) (upper : high.toReal = .ok h)
    (finiteLow : Scalar.isFinite l = true) (finiteHigh : Scalar.isFinite h = true) (less : l < h)
    (sampled : ((sampleInRange seed low high).step b).1 = .ok (.rangeSample r))
    (succeeded : r.status = .success) :
    ∃ (start : UInt64) (i : Nat) (x : Float), seed.expand = .ok start ∧ i < b.length ∧
      r = { status := .success, value := some x, bucket := some i } ∧
      (Sampler.Inside l h x ↔ ¬ Sampler.Undefined l h i (Stream.drawAt start 1)) ∧
      (Sampler.Undefined l h i (Stream.drawAt start 1) → Scalar.isNaN x = true) := by
  have range := Sampler.isRange_of_lt finiteLow finiteHigh less
  rw [step_sampleInRange] at sampled
  obtain ⟨answer, performed, same⟩ := map_ok sampled
  obtain rfl := Answer.rangeSample.inj same
  cases planned : Sampler.inRange seed low high b with
  | error e =>
    rw [planned] at performed
    cases performed
  | ok p =>
    rw [planned] at performed
    obtain ⟨-, rfl⟩ := Buffer.perform_ok performed
    obtain ⟨start, weights, started, found, drawn⟩ :=
      Sampler.inRange_success lower upper range planned succeeded
    obtain ⟨nonempty, -, accepted⟩ := Sampler.start?_some started
    have length : weights.length = b.length :=
      (Sampler.length_bucketWeights found).trans (Buffer.length_flat flat).symm
    have positive : 0 < b.length := Nat.pos_of_ne_zero nonempty
    have inside : Selection.select weights (Stream.uniformAt start 0) < b.length :=
      length ▸ Selection.select_lt (length.symm ▸ positive) _
    generalize Selection.select weights (Stream.uniformAt start 0) = i at inside drawn
    have undefined (escape : Sampler.Undefined l h i (Stream.drawAt start 1)) :
        Scalar.isNaN (Sampler.place l h b.length i (Stream.uniformAt start 1)) = true :=
      Sampler.isNaN_place finiteLow finiteHigh less positive buckets escape
    refine ⟨start, i, _, accepted, inside, drawn, ⟨?_, ?_⟩, undefined⟩
    · intro within escape
      exact Bool.false_ne_true ((isNaN_of_isFinite within.finite).symm.trans (undefined escape))
    · exact Sampler.inside_place finiteLow finiteHigh less positive buckets
        (inside.le.trans buckets) (Stream.drawAt_lt start 1)

theorem in_range_iff_of_two :
    (∃ (i : Nat) (x : Float),
      ((sampleInRange (.integer 7) (.real 0.5) (.real 2.0)).step (Buffer.ofList [1.0, 3.0])).1 =
        .ok (.rangeSample { status := .success, value := some x, bucket := some i }) ∧
      i < 2 ∧ Sampler.Inside 0.5 2.0 x) ∧
    ∃ x : Float,
      ((sampleInRange (.integer 1295129533618403646) (.real (-1e308)) (.real 1e308)).step
          (Buffer.ofList [1.0])).1 =
        .ok (.rangeSample { status := .success, value := some x, bucket := some 0 }) ∧
      Scalar.isNaN x = true := by
  have read (x : Float) : (Argument.real x : Argument Float).toReal = .ok x := rfl
  constructor
  · have started : Sampler.start? (.integer 7) (Buffer.ofList [(1.0 : Float), 3.0]) = some 7 := by
      decide +kernel
    have found : Sampler.bucketWeights? (Buffer.ofList [(1.0 : Float), 3.0]) =
        some [0.25, 0.75] := by
      decide +kernel
    have stepped := congrArg Prod.fst (step_drawn (.integer 7) rfl (by decide) (read 0.5)
      (read 2.0) (by decide +kernel) started found)
    obtain ⟨start, i, x, -, inside, same, within, -⟩ := in_range_iff
      (b := Buffer.ofList [1.0, 3.0]) rfl (by decide) (read 0.5) (read 2.0) (by decide +kernel)
      (by decide +kernel) (by decide +kernel) stepped rfl
    have bounded : Scalar.isFinite (2.0 - 0.5 : Float) = true := by decide +kernel
    refine ⟨i, x, same ▸ stepped, inside, within.mpr ?_⟩
    rintro ⟨infinite, -⟩
    exact Bool.false_ne_true (infinite.symm.trans bounded)
  · have started : Sampler.start? (.integer 1295129533618403646)
        (Buffer.ofList [(1.0 : Float)]) = some 1295129533618403646 := by
      decide +kernel
    have found : Sampler.bucketWeights? (Buffer.ofList [(1.0 : Float)]) = some [1.0] := by
      decide +kernel
    have stepped := congrArg Prod.fst (step_drawn (.integer 1295129533618403646) rfl (by decide)
      (read (-1e308)) (read 1e308) (by decide +kernel) started found)
    obtain ⟨start, i, x, accepted, inside, same, -, undefined⟩ := in_range_iff
      (b := Buffer.ofList [1.0]) rfl (by decide) (read (-1e308)) (read 1e308) (by decide +kernel)
      (by decide +kernel) (by decide +kernel) stepped rfl
    obtain rfl : start = 1295129533618403646 := (Except.ok.inj accepted).symm
    obtain rfl : i = 0 := Nat.lt_one_iff.mp inside
    have escape : Scalar.isFinite (1e308 - -1e308 : Float) = false ∧ 0 = 0 ∧
        Stream.drawAt 1295129533618403646 1 = 0 := by
      decide +kernel
    exact ⟨x, same ▸ stepped, undefined escape⟩

/-- A range too wide for its width to be a double, and a seed whose second draw is zero. -/
theorem wide_range_undefined :
    Scalar.isFinite (-1e308 : Float) = true ∧ Scalar.isFinite (1e308 : Float) = true ∧
    (-1e308 : Float) < 1e308 ∧
    (sampleInRange (.integer 1295129533618403646) (.real (-1e308)) (.real 1e308)).step
        (Buffer.ofList [1.0]) =
      (.ok (.rangeSample { status := .success, value := some Double.nan, bucket := some 0 }),
        Buffer.ofList [1.0]) ∧
    Scalar.isFinite Double.nan = false := by
  have read (x : Float) : (Argument.real x : Argument Float).toReal = .ok x := rfl
  have started : Sampler.start? (.integer 1295129533618403646) (Buffer.ofList [(1.0 : Float)]) =
      some 1295129533618403646 := by decide +kernel
  have found : Sampler.bucketWeights? (Buffer.ofList [(1.0 : Float)]) = some [1.0] := by
    decide +kernel
  have range : Sampler.isRange (-1e308 : Float) 1e308 = true := by decide +kernel
  have first : Selection.select [(1.0 : Float)] (Stream.uniformAt 1295129533618403646 0) = 0 := by
    decide +kernel
  have placed : Sampler.place (-1e308 : Float) 1e308 1 0 (Stream.uniformAt 1295129533618403646 1) =
      Double.nan := by
    decide +kernel
  refine ⟨by decide +kernel, by decide +kernel, by decide +kernel, ?_, by decide +kernel⟩
  rw [step_drawn _ rfl (by decide) (read _) (read _) range started found, first]
  rw [← placed]
  rfl

end Operation

end SeededChoice
