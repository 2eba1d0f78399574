import SeededChoice.Proofs.Double.Error
import SeededChoice.Proofs.Floor.Crest

/-!
# Passes over doubles

Between two passes all entries are finite doubles, of any size. A pass whose products are no larger
than the greatest double goes on with such entries or ends with finite values, and so do all passes
if their target is below the greatest double.
-/

namespace SeededChoice.Floor

open Scalar HasValue
open Double (Rounded greatest greatest_pos second reduced_of_isFinite two_pow_le_greatest)

variable {floor target : Float} {peak : ℝ} {entries : List (Entry Float)}

/-- What holds between two passes: the entries are finite, the greatest free one is the peak, and
this is not small beside the target. -/
structure Steady (floor target : Float) (peak : ℝ) (entries : List (Entry Float)) : Prop where
  numbers : ∀ e ∈ entries, isFinite e.value = true
  crest : Crest floor peak entries
  reach : ∀ e ∈ entries, e.isFree = true → value target ≤ 2 ^ 210 * peak

/-! ### The free entries -/

section
variable (unit : Within 1 floor) (numbers : ∀ e ∈ entries, isFinite e.value = true)
  (crest : Crest floor peak entries)
include unit numbers crest

theorem free_natural : ∀ x ∈ (entries.filter Entry.isFree).map Entry.value, Zero.zero ≤ x := by
  intro x member
  obtain ⟨e, kept, rfl⟩ := List.mem_map.mp member
  obtain ⟨listed, free⟩ := List.mem_filter.mp kept
  exact (value_nonneg_iff (numbers e listed)).mp (unit.least.trans (crest.above e listed free).le)

theorem freeMass_natural : Zero.zero ≤ freeMass entries :=
  zero_le_sum (free_natural unit numbers crest)

variable {e : Entry Float} (listed : e ∈ entries) (free : e.isFree = true)
include listed free

theorem value_le_freeMass (finite : isFinite (freeMass entries) = true) :
    value e.value ≤ value (freeMass entries) := by
  rw [← NearestScalar.le_iff (numbers e listed) finite]
  apply le_sum (free_natural unit numbers crest)
  exact List.mem_map.mpr ⟨e, List.mem_filter.mpr ⟨listed, free⟩, rfl⟩

theorem peak_le_value_freeMass (finite : isFinite (freeMass entries) = true) :
    0 < peak ∧ value floor < peak ∧ peak ≤ value (freeMass entries) := by
  obtain ⟨f, top, freeTop, same⟩ := crest.top e listed free
  have above := same ▸ crest.above f top freeTop
  exact ⟨unit.least.trans_lt above, above,
    same ▸ value_le_freeMass unit numbers crest top freeTop finite⟩

theorem freeMass_pos : ¬ freeMass entries ≤ Zero.zero := by
  intro massless
  have finite := NearestScalar.isFinite_between OrderedScalar.isFinite_zero
    OrderedScalar.isFinite_zero (freeMass_natural unit numbers crest) massless
  obtain ⟨positive, -, less⟩ := peak_le_value_freeMass unit numbers crest listed free finite
  exact not_lt_of_le massless ((value_pos_iff finite).mp (positive.trans_le less))

end

/-! ### The factor -/

section
variable (unit : Within 1 floor) (short : entries.length < 2 ^ 60)
  (aim : isFinite target = true) (natural : 0 ≤ value target)
include unit short aim natural

/-- What the pinned entries leave of the target. -/
theorem rest_bounds_double :
    Rounded (value target - value (floor * ofNat (entries.countP Entry.isPinned)))
      (target - floor * ofNat (entries.countP Entry.isPinned)).toModel.unpack ∧
    value (target - floor * ofNat (entries.countP Entry.isPinned)) ≤ value target ∧
    -(2 ^ 60 * value floor) ≤ value (target - floor * ofNat (entries.countP Entry.isPinned)) ∧
    (value floor = 0 → 0 ≤ value (target - floor * ofNat (entries.countP Entry.isPinned))) := by
  have taken := pinned_within unit short
  have most : value target ≤ greatest :=
    (le_abs_self _).trans (reduced_of_isFinite aim).abs_le_greatest
  have few : 2 ^ 60 * value floor ≤ (2 : ℝ) ^ (60 : Int) := floors_le unit
  have large := two_pow_le_greatest (k := 60) (by norm_num)
  have small : |value target - value (floor * ofNat (entries.countP Entry.isPinned))| ≤
      greatest := by
    rw [abs_le]
    constructor <;> linarith [taken.least, taken.most]
  have rounded := Double.rounded_sub aim taken.finite small
  refine ⟨rounded, rounded.isNearest.le ⟨target, aim, rfl⟩ (by linarith [taken.least]),
    rounded.isNearest.ge (isValue_floors unit).neg (by linarith [taken.most]), fun flat => ?_⟩
  apply rounded.isNearest.ge .zero
  rw [flat, mul_zero] at taken
  linarith [taken.most]

variable (steady : Steady floor target peak entries) {e : Entry Float} (listed : e ∈ entries)
  (free : e.isFree = true)
include steady listed free

/-- The factor under a finite mass, and one that no sum of doubles reaches. -/
theorem rounded_ratio (finite : isFinite (freeMass entries) = true) :
    Rounded (value (target - floor * ofNat (entries.countP Entry.isPinned)) /
      value (freeMass entries)) (ratio floor target entries).toModel.unpack := by
  obtain ⟨positive, above, less⟩ :=
    peak_le_value_freeMass unit steady.numbers steady.crest listed free finite
  obtain ⟨rest, most, least, -⟩ := rest_bounds_double unit short aim natural
  have massive := positive.trans_le less
  apply Double.rounded_div rest.1.isFinite finite massive.ne'
  have upper : value (target - floor * ofNat (entries.countP Entry.isPinned)) /
      value (freeMass entries) ≤ (2 : ℝ) ^ (210 : Int) := by
    rw [div_le_iff₀ massive]
    have scaled : (2 : ℝ) ^ 210 * peak ≤ 2 ^ 210 * value (freeMass entries) :=
      mul_le_mul_of_nonneg_left less (by positivity)
    exact (most.trans (steady.reach e listed free)).trans scaled
  have lower : -(2 : ℝ) ^ (60 : Int) ≤ value (target - floor * ofNat
      (entries.countP Entry.isPinned)) / value (freeMass entries) := by
    rw [le_div_iff₀ massive]
    have scaled : (2 : ℝ) ^ (60 : Int) * value floor ≤ 2 ^ (60 : Int) * value (freeMass entries) :=
      mul_le_mul_of_nonneg_left (above.le.trans less) (by positivity)
    rw [neg_mul]
    exact (neg_le_neg scaled).trans least
  have high := two_pow_le_greatest (k := 210) (by norm_num)
  have low := two_pow_le_greatest (k := 60) (by norm_num)
  rw [abs_le]
  exact ⟨(neg_le_neg low).trans lower, upper.trans high⟩

end

/-! ### Products that are not too large -/

/-- A factor under which no product of a free entry is too large. -/
structure Tame (floor factor : Float) (entries : List (Entry Float)) : Prop where
  finite : isFinite factor = true
  unsigned : value floor = 0 → 0 ≤ value factor
  small : ∀ e ∈ entries, e.isFree = true → |value e.value * value factor| ≤ greatest

theorem tame_of_zero {factor : Float} (finite : isFinite factor = true) (zero : value factor = 0) :
    Tame floor factor entries := by
  refine ⟨finite, fun _ => zero.ge, fun e _ _ => ?_⟩
  rw [zero, mul_zero, abs_zero]
  exact greatest_pos.le

section
variable (unit : Within 1 floor) (short : entries.length < 2 ^ 60)
  (aim : isFinite target = true) (natural : 0 ≤ value target)
  (steady : Steady floor target peak entries)
include unit short aim natural steady

/-- Under an infinite mass the factor is zero. -/
theorem ratio_infinite (infinite : isFinite (freeMass entries) = false) :
    isFinite (ratio floor target entries) = true ∧ value (ratio floor target entries) = 0 :=
  Double.div_infinite (rest_bounds_double unit short aim natural).1.1.isFinite
    (Double.eq_infinity (freeMass_natural unit steady.numbers steady.crest) infinite)

/-- Below the greatest double, no product is too large. -/
theorem ratio_tame (low : value target ≤ second) {e : Entry Float} (listed : e ∈ entries)
    (free : e.isFree = true) : Tame floor (ratio floor target entries) entries := by
  cases mass : isFinite (freeMass entries) with
  | false =>
    obtain ⟨finite, zero⟩ := ratio_infinite unit short aim natural steady mass
    exact tame_of_zero finite zero
  | true =>
    have rounded := rounded_ratio unit short aim natural steady listed free mass
    obtain ⟨-, most, least, flat⟩ := rest_bounds_double unit short aim natural
    obtain ⟨positive, -, less⟩ :=
      peak_le_value_freeMass unit steady.numbers steady.crest listed free mass
    have massive := positive.trans_le less
    refine ⟨rounded.1.isFinite, fun zero => ?_, fun f member freeToo => ?_⟩
    · exact rounded.isNearest.ge .zero (div_nonneg (flat zero) massive.le)
    have size := (reduced_of_isFinite (steady.numbers f member)).abs_le_greatest
    have small : |value (target - floor * ofNat (entries.countP Entry.isPinned))| ≤ second := by
      have large := Double.two_pow_le_second (k := 60) (by norm_num)
      have few : 2 ^ 60 * value floor ≤ (2 : ℝ) ^ (60 : Int) := floors_le unit
      rw [abs_le]
      constructor <;> linarith
    exact Double.abs_scaled_le rounded.2
      (unit.least.trans (steady.crest.above f member freeToo).le)
      (value_le_freeMass unit steady.numbers steady.crest member freeToo mass) massive
      ((le_abs_self _).trans size) small

end

/-! ### Passes -/

theorem passes_of_no_free {α : Type} [Scalar α] {floor target : α} {entries : List (Entry α)}
    (pinned : ∀ e ∈ entries, e.isFree = false) (n : Nat) :
    passes floor target n entries = spread target entries := by
  have settled : entries.any Entry.isFree = false := List.any_eq_false.mpr fun e listed => by
    rw [pinned e listed]
    exact Bool.false_ne_true
  cases n with
  | zero => rfl
  | succ n =>
    rw [passes, pass, settled]
    rfl

section
variable (aim : isFinite target = true) (natural : 0 ≤ value target)
  (short : entries.length < 2 ^ 60)
include aim natural short

theorem isFinite_spread (numbers : ∀ e ∈ entries, isFinite e.value = true) :
    ∀ y ∈ spread target entries, isFinite y = true := by
  intro y member
  obtain ⟨e, listed, rfl⟩ := List.mem_map.mp member
  split
  · rename_i eligible
    have counted : 0 < entries.countP Entry.isEligible :=
      List.countP_pos_iff.mpr ⟨e, listed, eligible⟩
    have few : entries.countP Entry.isEligible ≤ 2 ^ 60 := List.countP_le_length.trans short.le
    have count := within_ofNat (α := Float) few (by norm_num)
    have one := one_le_ofNat (α := Float) counted few (by norm_num)
    have dividend := (reduced_of_isFinite aim).natural natural
    exact (Double.isFinite_div dividend count.finite one).trans aim
  · exact numbers e listed

variable (unit : Within 1 floor) (steady : Steady floor target peak entries)
include unit steady

/-- A pass ends with finite values, or goes on as it began. -/
theorem pass_steady (tame : ∀ e ∈ entries, e.isFree = true →
    Tame floor (ratio floor target entries) entries) :
    (∃ values, pass floor target entries = .done values ∧ ∀ y ∈ values, isFinite y = true) ∨
    ∃ more, pass floor target entries = .again more ∧ more.length = entries.length ∧
      Steady floor target peak more := by
  have product {e : Entry Float} (listed : e ∈ entries) (free : e.isFree = true) :
      Rounded (value e.value * value (ratio floor target entries))
        (e.value * ratio floor target entries).toModel.unpack :=
    Double.rounded_mul (steady.numbers e listed) (tame e listed free).finite
      ((tame e listed free).small e listed free)
  rcases pass_cases floor target entries with ended | ⟨again, -⟩ | ⟨ended, -⟩
  · exact .inl ⟨_, ended, isFinite_spread aim natural short steady.numbers⟩
  · refine .inr ⟨_, again, List.length_map _, ?_, ?_, ?_⟩
    · intro g listed
      obtain ⟨e, member, same⟩ := (mem_pinned listed).1
      exact same ▸ steady.numbers e member
    · apply steady.crest.pin
      intro e listed f top free freeTop less
      exact floats_of_lt unit.finite unit.least (tame e listed free).unsigned free freeTop
        (unit.least.trans_lt (steady.crest.above e listed free)) less
        (product listed free).isNearest (product top freeTop).isNearest
    · exact fun g listed free => steady.reach g ((mem_pinned listed).2 free).1 free
  · refine .inl ⟨_, ended, fun y member => ?_⟩
    obtain ⟨e, listed, rfl⟩ := List.mem_map.mp member
    unfold settle
    split
    · exact steady.numbers e listed
    · rename_i free
      exact (product listed (decide_eq_true free)).1.isFinite
    · exact unit.finite

end

/-- Below the greatest double, all passes leave finite values. -/
theorem passes_finite (n : Nat) (unit : Within 1 floor) (aim : isFinite target = true)
    (natural : 0 ≤ value target) (low : value target ≤ second) (short : entries.length < 2 ^ 60)
    (steady : Steady floor target peak entries) :
    ∀ y ∈ passes floor target n entries, isFinite y = true := by
  induction n generalizing entries with
  | zero => exact isFinite_spread aim natural short steady.numbers
  | succ n ih =>
    rw [passes]
    rcases pass_steady aim natural short unit steady fun e listed free =>
      ratio_tame unit short aim natural steady low listed free with
      ⟨values, ended, finite⟩ | ⟨more, again, same, kept⟩
    · rw [ended]
      exact finite
    · rw [again]
      exact ih (same.trans_lt short) kept

end SeededChoice.Floor
