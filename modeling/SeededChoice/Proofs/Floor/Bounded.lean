import SeededChoice.Proofs.Distribution.Bounded
import SeededChoice.Proofs.Floor.Crest
import SeededChoice.Proofs.Operation.Shape

/-!
# Bounds on the floor

The greatest of the entries that are scaled is held at the floor last, so a pass never scales by more
than what the number of entries calls for, and no value gets too large to be a finite number.
-/

namespace SeededChoice.Floor

open Scalar HasValue

variable {α : Type} [Scalar α] [HasValue α] [NearestScalar α] {floor target factor : α} {peak : ℝ}
  {entries : List (Entry α)}

/-- What holds between two passes: no value is greater than two, the free ones lie between the floor
and the peak, and the peak is one of them and not small beside the target. -/
structure Led (floor target : α) (peak : ℝ) (entries : List (Entry α)) : Prop where
  within : ∀ e ∈ entries, Within 2 e.value
  above : ∀ e ∈ entries, e.isFree = true → value floor < value e.value
  below : ∀ e ∈ entries, e.isFree = true → value e.value ≤ peak
  top : ∀ e ∈ entries, e.isFree = true → ∃ f ∈ entries, f.isFree = true ∧ value f.value = peak
  reach : ∀ e ∈ entries, e.isFree = true → value target ≤ 2 ^ 186 * peak

omit [NearestScalar α] in
theorem Led.crest (led : Led floor target peak entries) : Crest floor peak entries :=
  ⟨led.above, led.below, led.top⟩

omit [NearestScalar α] in
theorem within_wide {x : α} (within : Within 2 x) : Within (2 ^ 187) x := within.mono (by norm_num)

/-- The sum of a list that can be held, none of its numbers greater than two. -/
theorem within_sum_two {xs : List α} (short : xs.length < 2 ^ 60) (each : ∀ x ∈ xs, Within 2 x) :
    Within (2 ^ 187) (sum xs) := by
  rw [← pow_one (2 : ℝ)] at each
  exact within_sum_two_pow (by norm_num) short each

section
variable (within : Within 1 floor) (aim : Within (2 ^ 187) target)
  (short : entries.length < 2 ^ 60) (led : Led floor target peak entries)
include within

/-! ### The factor of a pass -/

section
variable {e : Entry α} (listed : e ∈ entries) (free : e.isFree = true)
include short led listed free

theorem peak_le_freeMass : isFinite (freeMass entries) = true ∧ 0 < peak ∧ peak ≤ 2 ∧
    IsValue α peak ∧ value floor ≤ peak ∧ peak ≤ value (freeMass entries) := by
  obtain ⟨f, top, notHeld, rfl⟩ := led.top e listed free
  have each : ∀ x ∈ (entries.filter Entry.isFree).map Entry.value, Within 2 x := by
    intro x member
    obtain ⟨g, kept, rfl⟩ := List.mem_map.mp member
    exact led.within g (List.mem_of_mem_filter kept)
  have fewer : ((entries.filter Entry.isFree).map Entry.value).length < 2 ^ 60 := by
    rw [List.length_map]
    exact (List.length_filter_le _ _).trans_lt short
  have total := within_sum_two fewer each
  have part : f.value ∈ (entries.filter Entry.isFree).map Entry.value :=
    List.mem_map.mpr ⟨f, List.mem_filter.mpr ⟨top, notHeld⟩, rfl⟩
  have less := le_sum (fun x member => (each x member).natural) f.value part
  rw [NearestScalar.le_iff (each _ part).finite total.finite] at less
  have above := led.above f top notHeld
  exact ⟨total.finite, within.least.trans_lt above, (each _ part).most,
    ⟨f.value, (each _ part).finite, rfl⟩, above.le, less⟩

/-- What the pinned entries take is not much beside the peak. -/
theorem pinned_share : Within (2 ^ 60 * peak) (floor * ofNat (entries.countP Entry.isPinned)) ∧
    IsValue α (2 ^ 60 * peak) ∧
    (value floor = 0 → value (floor * ofNat (entries.countP Entry.isPinned)) = 0) := by
  obtain ⟨-, peakPositive, peakSmall, held, lower, -⟩ :=
    peak_le_freeMass within short led listed free
  have taken := pinned_within within short
  have small : 2 ^ 60 * peak ≤ limit := by
    have large : (2 : ℝ) ^ 60 * peak ≤ 2 ^ 60 * 2 := mul_le_mul_of_nonneg_left peakSmall (by positivity)
    rw [← pow_succ] at large
    exact large.trans (two_pow_le_limit (by norm_num))
  refine ⟨taken.mono (mul_le_mul_of_nonneg_left lower (by positivity)),
    held.scale 60 (by rwa [abs_of_pos peakPositive]), fun zero => ?_⟩
  rw [zero, mul_zero] at taken
  exact le_antisymm taken.most taken.least

include aim

/-- What the free entries are to take up is no more than the target. -/
theorem rest_bounds :
    IsNearest (value target - value (floor * ofNat (entries.countP Entry.isPinned)))
      (target - floor * ofNat (entries.countP Entry.isPinned)) ∧
    value (target - floor * ofNat (entries.countP Entry.isPinned)) ≤ value target ∧
    -(2 ^ 60 * peak) ≤ value (target - floor * ofNat (entries.countP Entry.isPinned)) := by
  obtain ⟨taken, scaled, -⟩ := pinned_share within short led listed free
  obtain ⟨-, -, peakSmall, -⟩ := peak_le_freeMass within short led listed free
  have high := two_pow_le_limit (k := 187) (by norm_num)
  have low : (2 : ℝ) ^ 60 * 2 ≤ limit := by
    rw [← pow_succ]
    exact two_pow_le_limit (by norm_num)
  have small : |value target - value (floor * ofNat (entries.countP Entry.isPinned))| ≤ limit := by
    rw [abs_le]
    constructor <;> linarith [aim.least, aim.most, taken.least, taken.most]
  have rest := NearestScalar.sub aim.finite taken.finite small
  exact ⟨rest, rest.le ⟨target, aim.finite, rfl⟩ (by linarith [taken.least]),
    rest.ge scaled.neg (by linarith [aim.least, taken.most])⟩

/-- The free entries are scaled by no more than what the peak calls for, and not by less than nothing
for a floor of zero. -/
theorem ratio_bounds : isFinite (ratio floor target entries) = true ∧
    value (ratio floor target entries) ≤ 2 ^ 186 ∧ -2 ^ 60 ≤ value (ratio floor target entries) ∧
    (value floor = 0 → 0 ≤ value (ratio floor target entries)) := by
  obtain ⟨finite, peakPositive, -, -, -, less⟩ := peak_le_freeMass within short led listed free
  obtain ⟨rest, most, least⟩ := rest_bounds within aim short led listed free
  have massPositive := peakPositive.trans_le less
  have upper : value (target - floor * ofNat (entries.countP Entry.isPinned)) /
      value (freeMass entries) ≤ 2 ^ 186 := by
    have scaledUp : (2 : ℝ) ^ 186 * peak ≤ 2 ^ 186 * value (freeMass entries) :=
      mul_le_mul_of_nonneg_left less (by positivity)
    rw [div_le_iff₀ massPositive]
    exact most.trans ((led.reach e listed free).trans scaledUp)
  have lower : -2 ^ 60 ≤ value (target - floor * ofNat (entries.countP Entry.isPinned)) /
      value (freeMass entries) := by
    have scaledUp : (2 : ℝ) ^ 60 * peak ≤ 2 ^ 60 * value (freeMass entries) :=
      mul_le_mul_of_nonneg_left less (by positivity)
    rw [le_div_iff₀ massPositive]
    linarith
  have small : |value (target - floor * ofNat (entries.countP Entry.isPinned)) /
      value (freeMass entries)| ≤ limit := by
    have high := two_pow_le_limit (k := 186) (by norm_num)
    have low := two_pow_le_limit (k := 60) (by norm_num)
    rw [abs_le]
    constructor <;> linarith
  have quotient := NearestScalar.div rest.1 finite massPositive.ne' small
  refine ⟨quotient.1, quotient.le (.two_pow (by norm_num)) upper,
    quotient.ge (IsValue.two_pow (by norm_num)).neg lower, fun zero => ?_⟩
  obtain ⟨-, -, nothing⟩ := pinned_share within short led listed free
  rw [nothing zero, sub_zero] at rest
  exact quotient.ge .zero (div_nonneg (rest.ge .zero aim.least) massPositive.le)

/-- A free entry, scaled. -/
theorem scaled_nearest :
    IsNearest (value e.value * value (ratio floor target entries))
      (e.value * ratio floor target entries) ∧
    value (e.value * ratio floor target entries) ≤ 2 ^ 187 := by
  obtain ⟨finite, upper, lower, -⟩ := ratio_bounds within aim short led listed free
  obtain ⟨number, least, most⟩ := led.within e listed
  have high := two_pow_le_limit (k := 187) (by norm_num)
  have scaled : value e.value * value (ratio floor target entries) ≤ 2 ^ 187 := by
    calc value e.value * value (ratio floor target entries) ≤ value e.value * 2 ^ 186 :=
          mul_le_mul_of_nonneg_left upper least
      _ ≤ 2 * 2 ^ 186 := mul_le_mul_of_nonneg_right most (by positivity)
      _ = 2 ^ 187 := (pow_succ' 2 186).symm
  have sunk : -2 ^ 187 ≤ value e.value * value (ratio floor target entries) := by
    calc (-2 ^ 187 : ℝ) = 2 * -2 ^ 186 := by ring
      _ ≤ value e.value * -2 ^ 186 := by
        apply mul_le_mul_of_nonpos_right most
        exact neg_nonpos.mpr (by positivity)
      _ ≤ value e.value * -2 ^ 60 := by
        apply mul_le_mul_of_nonneg_left _ least
        exact neg_le_neg (pow_le_pow_right₀ one_le_two (by norm_num))
      _ ≤ value e.value * value (ratio floor target entries) := mul_le_mul_of_nonneg_left lower least
  have small : |value e.value * value (ratio floor target entries)| ≤ limit := by
    rw [abs_le]
    constructor <;> linarith
  have product := NearestScalar.mul number finite small
  exact ⟨product, product.le (.two_pow (by norm_num)) scaled⟩

theorem settle_within (floats : sinks floor (ratio floor target entries) e = false) :
    Within (2 ^ 187) (e.value * ratio floor target entries) := by
  obtain ⟨product, most⟩ := scaled_nearest within aim short led listed free
  have reached : ¬ e.value * ratio floor target entries < floor := by
    rw [sinks, free, Bool.true_and] at floats
    exact of_decide_eq_false floats
  rw [lt_iff product.1 within.finite, not_lt] at reached
  exact ⟨product.1, within.least.trans reached, most⟩

end

/-! ### Passes -/

include aim short led

/-- Pinning the entries that sink leaves the peak free, as long as any entry is. -/
theorem pin_led : Led floor target peak (entries.map fun e =>
    if sinks floor (ratio floor target entries) e then { e with role := .pinned } else e) := by
  have crest := led.crest.pin fun e listed f top free freeTop less floats => by
    obtain ⟨product, -⟩ := scaled_nearest within aim short led listed free
    obtain ⟨productTop, -⟩ := scaled_nearest within aim short led top freeTop
    obtain ⟨-, -, -, unsigned⟩ := ratio_bounds within aim short led listed free
    exact floats_of_lt within.finite within.least unsigned free freeTop
      (within.least.trans_lt (led.above e listed free)) less product productTop floats
  refine ⟨fun g listed => ?_, crest.above, crest.below, crest.top,
    fun g listed free => led.reach g ((mem_pinned listed).2 free).1 free⟩
  obtain ⟨e, member, same⟩ := (mem_pinned listed).1
  exact same ▸ led.within e member

omit within in
theorem spread_within : ∀ y ∈ spread target entries, Within (2 ^ 187) y := by
  intro y member
  obtain ⟨e, listed, rfl⟩ := List.mem_map.mp member
  split
  · rename_i eligible
    have counted : 0 < entries.countP Entry.isEligible :=
      List.countP_pos_iff.mpr ⟨e, listed, eligible⟩
    have few : entries.countP Entry.isEligible ≤ 2 ^ 60 := List.countP_le_length.trans short.le
    have count := within_ofNat (α := α) few (by norm_num)
    have one := one_le_ofNat (α := α) counted few (by norm_num)
    refine aim.div count.finite (zero_lt_one.trans_le one) (.two_pow (by norm_num)) ?_
      (two_pow_le_limit (by norm_num))
    exact aim.most.trans (le_mul_of_one_le_right (by positivity) one)
  · exact within_wide (led.within e listed)

/-- A pass either ends with values that are not large, or goes on with entries that are led. -/
theorem pass_within :
    (∃ values, pass floor target entries = .done values ∧ ∀ y ∈ values, Within (2 ^ 187) y) ∨
    ∃ more, pass floor target entries = .again more ∧ more.length = entries.length ∧
      Led floor target peak more := by
  rcases pass_cases floor target entries with ended | ⟨again, -⟩ | ⟨ended, floats⟩
  · exact .inl ⟨_, ended, spread_within aim short led⟩
  · exact .inr ⟨_, again, List.length_map _, pin_led within aim short led⟩
  · refine .inl ⟨_, ended, fun y member => ?_⟩
    obtain ⟨e, listed, rfl⟩ := List.mem_map.mp member
    unfold settle
    split
    · exact within_wide (led.within e listed)
    · rename_i free
      exact settle_within within aim short led listed (decide_eq_true free) (floats e listed)
    · exact within_wide (within.mono one_le_two)

end

theorem passes_within (n : Nat) (within : Within 1 floor) (aim : Within (2 ^ 187) target)
    (short : entries.length < 2 ^ 60) (led : Led floor target peak entries) :
    ∀ y ∈ passes floor target n entries, Within (2 ^ 187) y := by
  induction n generalizing entries with
  | zero => exact spread_within aim short led
  | succ n ih =>
    rw [passes]
    rcases pass_within within aim short led with ⟨values, ended, bounded⟩ | ⟨more, again, same, kept⟩
    · rw [ended]
      exact bounded
    · rw [again]
      exact ih (same.trans_lt short) kept

/-! ### The floor -/

section
variable {minimum : α} {zeros : Bool} {values : List α} {n : Nat}

/-- Before the first pass, the greatest eligible value leads. -/
theorem start_led (zeros : Bool) (within : Within 1 floor) (each : ∀ x ∈ values, Within 2 x)
    (short : values.length < 2 ^ 60)
    (aim : target = if sum (values.filter (isEligible zeros)) ≤ 0 then 1
      else sum (values.filter (isEligible zeros))) :
    ∃ peak, Led floor target peak (values.map (start zeros floor)) := by
  have bounded : ∀ e ∈ values.map (start zeros floor), Within 2 e.value := by
    intro e listed
    obtain ⟨x, member, rfl⟩ := List.mem_map.mp listed
    exact each x member
  by_cases barren : values.filter (isEligible zeros) = []
  · have noFree {e : Entry α} (listed : e ∈ values.map (start zeros floor))
        (notHeld : e.isFree = true) : False := by
      have eligible := (start_free listed notHeld).1
      rw [barren] at eligible
      cases eligible
    exact ⟨0, bounded, fun e listed notHeld => (noFree listed notHeld).elim,
      fun e listed notHeld => (noFree listed notHeld).elim,
      fun e listed notHeld => (noFree listed notHeld).elim,
      fun e listed notHeld => (noFree listed notHeld).elim⟩
  obtain ⟨p, top, greatest⟩ := exists_greatest barren
  have member := List.mem_of_mem_filter top
  have crest := start_crest within.finite (fun x listed => (each x listed).finite) top greatest
  refine ⟨value p, bounded, crest.above, crest.below, crest.top, fun e listed notHeld => ?_⟩
  obtain ⟨part, -⟩ := start_free listed notHeld
  have parts : ∀ x ∈ values.filter (isEligible zeros), Within (value p) x := fun x listed =>
    ⟨(each x (List.mem_of_mem_filter listed)).finite,
      (each x (List.mem_of_mem_filter listed)).least, greatest x listed⟩
  have fewer : (values.filter (isEligible zeros)).length < 2 ^ 60 :=
    (List.length_filter_le _ _).trans_lt short
  have small : (2 : ℝ) ^ 186 * value p ≤ limit := by
    have large : (2 : ℝ) ^ 186 * value p ≤ 2 ^ 186 * 2 :=
      mul_le_mul_of_nonneg_left (each p member).most (by positivity)
    rw [← pow_succ] at large
    exact large.trans (two_pow_le_limit (by norm_num))
  have mass := within_sum ⟨p, (each p member).finite, rfl⟩ (each p member).least small fewer parts
  have less := le_sum (fun x listed => (parts x listed).natural) _ part
  rw [NearestScalar.le_iff (parts _ part).finite mass.finite] at less
  have massive : ¬ sum (values.filter (isEligible zeros)) ≤ 0 := by
    rw [NearestScalar.le_iff mass.finite OrderedScalar.isFinite_zero, NearestScalar.value_zero,
      not_le]
    exact within.least.trans_lt ((crest.above e listed notHeld).trans_le less)
  rw [aim, if_neg massive]
  exact mass.most

theorem raise_within (unit : Within 1 minimum) (each : ∀ x ∈ values, Within 2 x)
    (short : values.length < 2 ^ 60) (positive : 0 < n) (size : n < 2 ^ 60) :
    ∀ y ∈ raise minimum zeros values n, Within (2 ^ 187) y := by
  have within := unit.share positive size
  have mass : Within (2 ^ 187) (sum (values.filter (isEligible zeros))) :=
    within_sum_two ((List.length_filter_le _ _).trans_lt short)
      fun x listed => each x (List.mem_of_mem_filter listed)
  obtain ⟨peak, led⟩ := start_led zeros within each short rfl
  unfold raise
  apply passes_within values.length within _ ((List.length_map _).trans_lt short) led
  split
  · exact within_wide (within_one.mono one_le_two)
  · exact mass

theorem level_within (each : ∀ x ∈ values, Within 2 x) (short : values.length < 2 ^ 60) :
    ∀ y ∈ level zeros values, Within (2 ^ 187) y := by
  intro y member
  obtain ⟨x, listed, rfl⟩ := List.mem_map.mp member
  split
  · rename_i eligible
    have counted : 0 < values.countP (isEligible zeros) :=
      List.countP_pos_iff.mpr ⟨x, listed, eligible⟩
    have few : values.countP (isEligible zeros) < 2 ^ 60 := List.countP_le_length.trans_lt short
    exact within_wide ((within_one.share counted few).mono one_le_two)
  · exact within_wide (each x listed)

/-- A floor between zero and one is enforced on any distribution that can be held. -/
theorem enforce_leaves {b : Buffer α} (zeros : Bool) (flat : b.rows = none)
    (positive : 0 < b.entries.length) (short : b.entries.length < 2 ^ 60)
    (each : ∀ x ∈ b.entries, Within 2 x) (least : 0 ≤ minimum) (most : minimum ≤ 1) :
    ∃ u, enforce (.real minimum) zeros b = .ok (.accept u) ∧ u.Leaves (2 ^ 187) b.entries := by
  have unit := within_unit least most
  have length := Buffer.length_flat flat
  have read : (Argument.real minimum).toReal = .ok minimum := rfl
  have planned := enforce_accepts zeros read (length.trans_ne positive.ne')
    (inUnitInterval_iff.mpr ⟨least, most⟩) fun x listed => (each x listed).finite
  refine ⟨_, planned, enforce_fits planned, ?_⟩
  split
  · exact fun y member => within_wide (each y member)
  split
  · exact level_within each short
  · rw [length]
    exact raise_within unit each short positive short

omit [HasValue α] [NearestScalar α] in
theorem enforce_outside {b : Buffer α} (outside : inUnitInterval minimum = false) :
    enforce (.real minimum) zeros b = .ok (.refuse .badRange) := by
  simp [enforce, Argument.toReal, bind, Except.bind, outside, pure, Except.pure]

/-- A floor above one is refused. -/
theorem enforce_above {b : Buffer α} (above : 1 < minimum) :
    enforce (.real minimum) zeros b = .ok (.refuse .badRange) := by
  apply enforce_outside
  rw [← Bool.not_eq_true, inUnitInterval_iff]
  exact fun unit => not_lt_of_le unit.2 above

end

end SeededChoice.Floor
