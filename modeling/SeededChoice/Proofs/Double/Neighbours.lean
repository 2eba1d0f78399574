import SeededChoice.Proofs.Double.Operations

/-!
# Neighbouring doubles

The bits of a finite double count its place among all of them: up from zero, or down from there if
the sign bit is set. So the next double is the one of the next bits, and no other lies between.
-/

namespace SeededChoice.Double

open Float.Model Float.Model.UnpackedFloat

/-- How many places above zero a finite double stands. -/
def ordinal : UnpackedFloat → Int
  | .finite s m e _ => s.apply ((e + 1074) * 2 ^ 52 + m)
  | .zero _ | .infinity _ | .notANumber => 0

theorem ordinal_lt_iff {u v : UnpackedFloat} (left : Reduced u) (right : Reduced v) :
    ordinal u < ordinal v ↔ rank u < rank v := by
  rcases left with s | @⟨_ | _, m, e, ⟨leastM, mostM, lowM, fullM⟩, -⟩ <;>
    rcases right with t | @⟨_ | _, n, f, ⟨leastN, mostN, lowN, fullN⟩, -⟩ <;>
    simp only [ordinal, Sign.apply, rank, Prod.Lex.lt_iff] <;> simp <;> omega

theorem toNat_unpackMantissa (bits : BitVec 64) :
    (@unpackMantissa Format.binary64 bits).toNat = bits.toNat % 2 ^ 52 := by
  simp [unpackMantissa, BitVec.extractLsb_toNat]

theorem toNat_unpackExponent (bits : BitVec 64) :
    (@unpackExponent Format.binary64 bits).toNat = bits.toNat / 2 ^ 52 % 2 ^ 11 := by
  simp [unpackExponent, BitVec.extractLsb_toNat, Nat.shiftRight_eq_div_pow]

theorem toNat_unpackSign (bits : BitVec 64) :
    (@unpackSign Format.binary64 bits).toNat = bits.toNat / 2 ^ 63 := by
  have size := bits.isLt
  simp [unpackSign, BitVec.extractLsb_toNat, Nat.shiftRight_eq_div_pow]
  omega

/-- The place that bits tell: counted up from zero, or down from there if the sign bit is set. -/
def place (bits : Nat) : Int := if bits < 2 ^ 63 then bits else 2 ^ 63 - bits

theorem isFinite_unpack (bits : BitVec 64) :
    (UnpackedFloat.unpack Format.binary64 bits).isFinite = true ↔
      bits.toNat / 2 ^ 52 % 2 ^ 11 ≠ 2047 := by
  rw [← toNat_unpackExponent]
  simp only [UnpackedFloat.unpack]
  constructor
  · intro finite top
    rw [if_pos (BitVec.eq_of_toNat_eq top)] at finite
    split at finite <;> cases finite
  · intro notTop
    rw [if_neg fun top => notTop (congrArg BitVec.toNat top)]
    split
    · split <;> rfl
    · rfl

theorem ordinal_unpack {bits : BitVec 64}
    (finite : (UnpackedFloat.unpack Format.binary64 bits).isFinite = true) :
    ordinal (UnpackedFloat.unpack Format.binary64 bits) = place bits.toNat := by
  have fraction := toNat_unpackMantissa bits
  have exponent := toNat_unpackExponent bits
  have sign := toNat_unpackSign bits
  have size := bits.isLt
  have notTop : @unpackExponent Format.binary64 bits ≠ -1#11 := by
    intro top
    rw [isFinite_unpack, ← exponent, top] at finite
    exact finite rfl
  have signed (n : Int) (whole : (bits.toNat % 2 ^ 63 : Nat) = n) :
      (Sign.ofBitVec (@unpackSign Format.binary64 bits)).apply n = place bits.toNat := by
    unfold Sign.ofBitVec place
    split
    · rename_i zero
      rw [zero] at sign
      simp at sign
      rw [if_pos (by omega), Sign.apply]
      omega
    · rename_i nonzero
      have one : (@unpackSign Format.binary64 bits).toNat ≠ 0 :=
        fun zero => nonzero (BitVec.eq_of_toNat_eq zero)
      rw [if_neg (by omega), Sign.apply]
      omega
  simp only [UnpackedFloat.unpack]
  rw [if_neg notTop]
  split
  · rename_i bottom
    have low : bits.toNat / 2 ^ 52 % 2 ^ 11 = 0 := exponent ▸ congrArg BitVec.toNat bottom
    split
    · rename_i zero
      have blank : bits.toNat % 2 ^ 52 = 0 := fraction ▸ congrArg BitVec.toNat zero
      show 0 = place bits.toNat
      unfold place
      split <;> omega
    · apply signed
      rw [fraction, exponent, low]
      simp only [Format.exponentBias]
      omega
  · apply signed
    rw [toNat_append, fraction, exponent]
    simp only [Format.exponentBias]
    simp
    omega

/-! ### Steps -/

theorem unpack_ofBits {bits : UInt64}
    (finite : (UnpackedFloat.unpack Format.binary64 bits.toBitVec).isFinite = true) :
    (Float.ofBits bits).toModel.unpack = UnpackedFloat.unpack Format.binary64 bits.toBitVec :=
  (reduced_unpack finite).unpack_pack

theorem ordinal_eq_place {x : Float} (finite : x.toModel.unpack.isFinite = true) :
    ordinal x.toModel.unpack = place x.toBits.toNat := ordinal_unpack finite

theorem compare_eq_iff {u v : UnpackedFloat} (left : Reduced u) (right : Reduced v) :
    u.compare v = some .eq ↔ ordinal u = ordinal v := by
  rcases left with s | @⟨_ | _, m, e, ⟨leastM, mostM, lowM, fullM⟩, -⟩ <;>
    rcases right with t | @⟨_ | _, n, f, ⟨leastN, mostN, lowN, fullN⟩, -⟩ <;>
    simp [UnpackedFloat.compare, ordinal, Sign.apply, Ordering.swap_then, Ordering.then_eq_eq] <;>
    omega

theorem beq_iff_ordinal {x y : Float} (left : x.toModel.unpack.isFinite = true)
    (right : y.toModel.unpack.isFinite = true) :
    (x == y) = true ↔ ordinal x.toModel.unpack = ordinal y.toModel.unpack := by
  rw [← compare_eq_iff (reduced_of_isFinite left) (reduced_of_isFinite right)]
  show (x.toModel.unpack.compare y.toModel.unpack == some .eq) = true ↔ _
  rw [beq_iff_eq]

theorem isNaN_of_isFinite {x : Float} (finite : x.toModel.unpack.isFinite = true) :
    Scalar.isNaN x = false := by
  rw [Scalar.isNaN, (beq_iff_ordinal finite finite).mpr rfl]
  rfl

theorem lt_iff_ordinal {x y : Float} (left : x.toModel.unpack.isFinite = true)
    (right : y.toModel.unpack.isFinite = true) :
    x < y ↔ ordinal x.toModel.unpack < ordinal y.toModel.unpack := by
  have first := reduced_of_isFinite left
  have second := reduced_of_isFinite right
  rw [lt_iff, lt_iff_rank, ordinal_lt_iff first second]
  exact ⟨fun less => less.2.2, fun less => ⟨first.number, second.number, less⟩⟩

theorem le_iff_ordinal {x y : Float} (left : x.toModel.unpack.isFinite = true)
    (right : y.toModel.unpack.isFinite = true) :
    x ≤ y ↔ ordinal x.toModel.unpack ≤ ordinal y.toModel.unpack := by
  have first := reduced_of_isFinite left
  have second := reduced_of_isFinite right
  rw [le_iff, le_iff_rank, ← not_lt, ← not_lt, ordinal_lt_iff second first]
  exact ⟨fun least => least.2.2, fun least => ⟨first.number, second.number, least⟩⟩

theorem value_eq_of_beq {x y : Float} (left : x.toModel.unpack.isFinite = true)
    (right : y.toModel.unpack.isFinite = true) (same : (x == y) = true) :
    HasValue.value x = HasValue.value y := by
  have places := (beq_iff_ordinal left right).mp same
  exact le_antisymm ((le_iff_value left right).mp ((le_iff_ordinal left right).mpr places.le))
    ((le_iff_value right left).mp ((le_iff_ordinal right left).mpr places.ge))

theorem place_of_isFinite {x : Float} (finite : x.toModel.unpack.isFinite = true) :
    x.toBits.toNat / 2 ^ 52 % 2 ^ 11 ≠ 2047 := (isFinite_unpack _).mp finite

theorem ofBits_place {bits : UInt64} (inside : bits.toNat / 2 ^ 52 % 2 ^ 11 ≠ 2047) :
    (Float.ofBits bits).toModel.unpack.isFinite = true ∧
      ordinal (Float.ofBits bits).toModel.unpack = place bits.toNat := by
  have finite := (isFinite_unpack bits.toBitVec).mpr inside
  rw [unpack_ofBits finite]
  exact ⟨finite, ordinal_unpack finite⟩

/-- The double before another one is found by its bits. -/
theorem ordinal_stepToward {x y : Float} (left : x.toModel.unpack.isFinite = true)
    (right : y.toModel.unpack.isFinite = true) (less : y < x) :
    (stepToward x y).toModel.unpack.isFinite = true ∧
      ordinal (stepToward x y).toModel.unpack = ordinal x.toModel.unpack - 1 := by
  have zero : (0.0 : Float).toModel.unpack.isFinite = true := by decide +kernel
  have origin : ordinal (0.0 : Float).toModel.unpack = 0 := by decide +kernel
  have below := (lt_iff_ordinal right left).mp less
  have number {z : Float} (finite : z.toModel.unpack.isFinite = true) : (z != z) = false :=
    isNaN_of_isFinite finite
  have other : (x == y) = false := by
    rw [Bool.eq_false_iff, Ne, beq_iff_ordinal left right]
    exact below.ne'
  have opposite : decide (x < y) = false := by
    rw [decide_eq_false_iff_not, lt_iff_ordinal left right]
    exact below.not_gt
  have inside := place_of_isFinite left
  have least := place_of_isFinite right
  have bits := ordinal_eq_place left
  have lower := ordinal_eq_place right
  have size := x.toBits.toNat_lt
  have others := y.toBits.toNat_lt
  rw [stepToward, number left, number right, other]
  simp only [Bool.or_self, Bool.false_eq_true, if_false, opposite]
  rcases Int.lt_trichotomy (ordinal x.toModel.unpack) 0 with negative | level | positive
  · have nonzero : (x == 0.0) = false := by
      rw [Bool.eq_false_iff, Ne, beq_iff_ordinal left zero, origin]
      exact negative.ne
    have up : decide (0.0 < x) = false := by
      rw [decide_eq_false_iff_not, lt_iff_ordinal zero left, origin]
      exact negative.not_gt
    rw [nonzero, up]
    simp only [Bool.false_eq_true, if_false, BEq.rfl, if_true]
    have next : (x.toBits + 1).toNat = x.toBits.toNat + 1 := by
      rw [UInt64.toNat_add, UInt64.toNat_one]
      omega
    have room : (x.toBits + 1).toNat / 2 ^ 52 % 2 ^ 11 ≠ 2047 := by
      rw [next]
      unfold place at *
      omega
    obtain ⟨finite, reached⟩ := ofBits_place room
    refine ⟨finite, reached.trans ?_⟩
    rw [next, bits]
    unfold place at *
    omega
  · have same : (x == 0.0) = true := by
      rw [beq_iff_ordinal left zero, level, origin]
    have down : decide (y < 0.0) = true := by
      rw [decide_eq_true_iff, lt_iff_ordinal right zero, origin, ← level]
      exact below
    rw [same, down, level]
    simp only [if_true]
    decide +kernel
  · have nonzero : (x == 0.0) = false := by
      rw [Bool.eq_false_iff, Ne, beq_iff_ordinal left zero, origin]
      exact positive.ne'
    have up : decide (0.0 < x) = true := by
      rw [decide_eq_true_iff, lt_iff_ordinal zero left, origin]
      exact positive
    rw [nonzero, up]
    simp only [Bool.false_eq_true, if_false]
    have last : (x.toBits - 1).toNat = x.toBits.toNat - 1 := by
      rw [UInt64.toNat_sub_of_le]
      · rfl
      · rw [UInt64.le_iff_toNat_le, UInt64.toNat_one]
        unfold place at *
        omega
    have room : (x.toBits - 1).toNat / 2 ^ 52 % 2 ^ 11 ≠ 2047 := by
      rw [last]
      unfold place at *
      omega
    obtain ⟨finite, reached⟩ := ofBits_place room
    refine ⟨finite, reached.trans ?_⟩
    rw [last, bits]
    unfold place at *
    omega

/-- The step down from a double stays above every lesser one. -/
theorem stepToward_between {x y : Float} (left : x.toModel.unpack.isFinite = true)
    (right : y.toModel.unpack.isFinite = true) (less : y < x) :
    (stepToward x y).toModel.unpack.isFinite = true ∧ y ≤ stepToward x y ∧ stepToward x y < x := by
  obtain ⟨finite, next⟩ := ordinal_stepToward left right less
  have below := (lt_iff_ordinal right left).mp less
  refine ⟨finite, ?_, ?_⟩
  · rw [le_iff_ordinal right finite, next]
    omega
  · rw [lt_iff_ordinal finite left, next]
    omega

end SeededChoice.Double
