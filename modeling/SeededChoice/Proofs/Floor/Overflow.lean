import SeededChoice.Operation
import SeededChoice.Proofs.Buffer.Writing
import SeededChoice.Proofs.Double.Neighbours
import SeededChoice.Proofs.Floor.Steady
import SeededChoice.Proofs.Operation.Shape

/-!
# Floors on finite doubles

Entries that are finite one by one may have a total that is not. A floor on such entries leaves what
is no number; below the greatest double it leaves finite numbers only, and at the greatest double it
depends on the order in which the entries were added.
-/

namespace SeededChoice.Floor

open Scalar HasValue
open Double (Rounded Exceeds greatest greatest_pos second maxFinite reduced_of_isFinite)

variable {floor target : Float} {peak : ℝ} {entries : List (Entry Float)}

/-! ### An infinite target -/

/-- Under an infinite target no entry sinks, and what is scaled becomes infinite or undefined. -/
theorem passes_infinite (unit : Within 1 floor) (short : entries.length < 2 ^ 60)
    (numbers : ∀ e ∈ entries, isFinite e.value = true) (crest : Crest floor peak entries)
    (infinite : target.toModel.unpack = .infinity .positive) {e : Entry Float}
    (listed : e ∈ entries) (free : e.isFree = true) (n : Nat) :
    ∃ y ∈ passes floor target (n + 1) entries, isFinite y = false := by
  have massive := freeMass_pos unit numbers crest listed free
  have factor : Exceeds (ratio floor target entries) :=
    Double.exceeds_div (Double.sub_finite infinite (pinned_within unit short).finite)
      (freeMass_natural unit numbers crest) massive
  have product {f : Entry Float} (member : f ∈ entries) (notHeld : f.isFree = true) :
      Exceeds (f.value * ratio floor target entries) :=
    factor.mul (numbers f member) (unit.least.trans_lt (crest.above f member notHeld))
  have floats : ∀ f ∈ entries, sinks floor (ratio floor target entries) f = false := by
    intro f member
    rw [sinks]
    cases notHeld : f.isFree with
    | false => rfl
    | true =>
      rw [Bool.true_and]
      exact decide_eq_false ((product member notHeld).not_lt unit.finite)
  refine ⟨settle floor (ratio floor target entries) e, ?_, ?_⟩
  · rw [passes, pass_settle listed free massive floats]
    exact List.mem_map.mpr ⟨e, listed, rfl⟩
  · have role : e.role = .free := of_decide_eq_true free
    rw [settle, role]
    exact (product listed free).isFinite_eq

/-! ### The greatest target -/

section
variable (unit : Within 1 floor) (short : entries.length < 2 ^ 60)
  (aim : isFinite target = true) (top : value target = greatest)
include unit short aim top

/-- What the pinned entries take of the greatest double does not show. -/
theorem rest_eq_target : target - floor * ofNat (entries.countP Entry.isPinned) = target := by
  have natural : 0 ≤ value target := top ▸ greatest_pos.le
  obtain ⟨rest, -⟩ := rest_bounds_double unit short aim natural
  have taken := pinned_within unit short
  have small : 2 * value (floor * ofNat (entries.countP Entry.isPinned)) < 2 ^ (971 : Int) := by
    calc 2 * value (floor * ofNat (entries.countP Entry.isPinned)) ≤ 2 * 2 ^ 60 :=
          mul_le_mul_of_nonneg_left (taken.most.trans (floors_le unit)) (by norm_num)
      _ = (2 : ℝ) ^ (61 : Int) := by norm_num
      _ < 2 ^ (971 : Int) := zpow_lt_zpow_right₀ one_lt_two (by norm_num)
  rw [top] at rest
  have same := rest.eq_greatest taken.least small
  exact Double.eq_of_value rest.1.isFinite aim (same.trans_ne greatest_pos.ne')
    (same.trans top.symm)

theorem ratio_eq : ratio floor target entries = target / freeMass entries := by
  rw [ratio, rest_eq_target unit short aim top]

variable (steady : Steady floor target peak entries)
include steady

/-- Under a finite mass the greatest target scales entries up, and none sinks. -/
theorem floats_of_greatest (finite : isFinite (freeMass entries) = true) :
    ∀ e ∈ entries, sinks floor (ratio floor target entries) e = false := by
  intro e listed
  rw [sinks]
  cases free : e.isFree with
  | false => rfl
  | true =>
    have natural : 0 ≤ value target := top ▸ greatest_pos.le
    have rounded := rounded_ratio unit short aim natural steady listed free finite
    obtain ⟨positive, -, less⟩ :=
      peak_le_value_freeMass unit steady.numbers steady.crest listed free finite
    have scaling : 1 ≤ value (ratio floor target entries) := by
      apply rounded.isNearest.ge .one
      rw [rest_eq_target unit short aim top, top, one_le_div (positive.trans_le less)]
      exact (le_abs_self _).trans (reduced_of_isFinite finite).abs_le_greatest
    have above := steady.crest.above e listed free
    have more := Double.le_mul (steady.numbers e listed) rounded.1.isFinite
      (unit.least.trans above.le) scaling
    rw [Bool.true_and, decide_eq_false_iff_not]
    exact not_lt_of_le (OrderedScalar.le_trans
      ((NearestScalar.le_iff unit.finite (steady.numbers e listed)).mpr above.le) more)

section
variable (infinite : isFinite (freeMass entries) = false)
include infinite

/-- Under an infinite mass every entry is scaled to zero. -/
theorem product_eq_zero {e : Entry Float} (listed : e ∈ entries) :
    isFinite (e.value * ratio floor target entries) = true ∧
      value (e.value * ratio floor target entries) = 0 := by
  have natural : 0 ≤ value target := top ▸ greatest_pos.le
  obtain ⟨finite, zero⟩ := ratio_infinite unit short aim natural steady infinite
  have rounded := Double.rounded_mul (steady.numbers e listed) finite
    (by rw [zero, mul_zero, abs_zero]; exact greatest_pos.le)
  rw [zero, mul_zero] at rounded
  exact ⟨rounded.1.isFinite, rounded.isNearest.eq .zero⟩

theorem passes_scattered (n : Nat) :
    ∀ y ∈ passes floor target (n + 1) entries, isFinite y = true := by
  have natural : 0 ≤ value target := top ▸ greatest_pos.le
  have product {e : Entry Float} (listed : e ∈ entries) :=
    product_eq_zero unit short aim top steady infinite listed
  rw [passes]
  rcases pass_cases floor target entries with ended | ⟨again, e, listed, sunk⟩ | ⟨ended, -⟩
  · rw [ended]
    exact isFinite_spread aim natural short steady.numbers
  · -- Zero is below the floor, so no entry stays free.
    have positive : 0 < value floor := by
      rw [sinks, Bool.and_eq_true, decide_eq_true_eq, lt_iff (product listed).1 unit.finite,
        (product listed).2] at sunk
      exact sunk.2
    have pinned : ∀ g ∈ entries.map (fun e => if sinks floor (ratio floor target entries) e then
        { e with role := .pinned } else e), g.isFree = false := by
      intro g member
      cases notHeld : g.isFree with
      | false => rfl
      | true =>
        obtain ⟨inside, floats⟩ := (mem_pinned member).2 notHeld
        rw [sinks, notHeld, Bool.true_and, decide_eq_false_iff_not,
          lt_iff (product inside).1 unit.finite, (product inside).2] at floats
        exact absurd positive floats
    rw [again]
    dsimp only
    rw [passes_of_no_free pinned]
    apply isFinite_spread aim natural ((List.length_map _).trans_lt short)
    intro g member
    obtain ⟨f, inside, same⟩ := (mem_pinned member).1
    exact same ▸ steady.numbers f inside
  · rw [ended]
    intro y member
    obtain ⟨f, inside, rfl⟩ := List.mem_map.mp member
    unfold settle
    split
    · exact steady.numbers f inside
    · exact (product inside).1
    · exact unit.finite

end

/-- At the greatest double, the first pass decides. -/
theorem passes_greatest (n : Nat) : (∀ y ∈ passes floor target (n + 1) entries, isFinite y = true) ↔
    ∀ e ∈ entries, e.isFree = true → isFinite (e.value * (target / freeMass entries)) = true := by
  rw [← ratio_eq unit short aim top]
  cases mass : isFinite (freeMass entries) with
  | false =>
    exact ⟨fun _ e listed _ => (product_eq_zero unit short aim top steady mass listed).1,
      fun _ => passes_scattered unit short aim top steady mass n⟩
  | true =>
    by_cases loose : ∃ e ∈ entries, e.isFree = true
    · obtain ⟨e, listed, free⟩ := loose
      have massive := freeMass_pos unit steady.numbers steady.crest listed free
      rw [passes, pass_settle listed free massive
        (floats_of_greatest unit short aim top steady mass)]
      simp only [List.mem_map, forall_exists_index, and_imp, forall_apply_eq_imp_iff₂]
      refine forall₂_congr fun f inside => ?_
      have role : f.isFree = true ↔ f.role = .free := decide_eq_true_iff
      rw [role, settle]
      cases f.role with
      | excluded => simp [steady.numbers f inside]
      | free => simp
      | pinned => simp [unit.finite]
    · have pinned : ∀ e ∈ entries, e.isFree = false := fun e listed =>
        Bool.eq_false_iff.mpr fun free => loose ⟨e, listed, free⟩
      have natural : 0 ≤ value target := top ▸ greatest_pos.le
      rw [passes_of_no_free pinned]
      exact ⟨fun _ e listed free => absurd free (Bool.eq_false_iff.mp (pinned e listed)),
        fun _ => isFinite_spread aim natural short steady.numbers⟩

end

/-! ### The roles at the start -/

section
variable {zeros : Bool} {values : List Float}

/-- The eligible values above the floor, which the first pass scales. -/
def scaled {α : Type} [Scalar α] (zeros : Bool) (floor : α) (values : List α) : List α :=
  values.filter fun x => isEligible zeros x && !decide (x ≤ floor)

theorem free_start (zeros : Bool) (floor : Float) (values : List Float) :
    ((values.map (start zeros floor)).filter Entry.isFree).map Entry.value =
      scaled zeros floor values := by
  have free : Entry.isFree ∘ start zeros floor =
      fun x => isEligible zeros x && !decide (x ≤ floor) := by
    funext x
    rw [Function.comp_apply, start, Entry.isFree]
    cases isEligible zeros x <;> by_cases low : x ≤ floor <;> simp [low]
  have kept : Entry.value ∘ start zeros floor = id := rfl
  rw [List.filter_map, free, List.map_map, kept, List.map_id]
  rfl

theorem forall_free_start {P : Float → Prop} :
    (∀ e ∈ values.map (start zeros floor), e.isFree = true → P e.value) ↔
      ∀ x ∈ scaled zeros floor values, P x := by
  simp only [← free_start, List.forall_mem_map, List.mem_filter, and_imp]

theorem start_numbers (numbers : ∀ x ∈ values, isFinite x = true) :
    ∀ e ∈ values.map (start zeros floor), isFinite e.value = true := by
  intro e listed
  obtain ⟨x, member, rfl⟩ := List.mem_map.mp listed
  exact numbers x member

/-- An eligible number is not negative. -/
theorem eligible_natural (numbers : ∀ x ∈ values, isFinite x = true) :
    ∀ x ∈ values.filter (isEligible zeros), 0 ≤ value x := by
  intro x member
  obtain ⟨listed, eligible⟩ := List.mem_filter.mp member
  have finite := numbers x listed
  rw [isEligible, Bool.or_eq_true, decide_eq_true_eq, Bool.and_eq_true] at eligible
  rcases eligible with positive | ⟨-, zero⟩
  · exact ((value_pos_iff finite).mpr positive).le
  · have origin : isFinite (Zero.zero : Float) = true := OrderedScalar.isFinite_zero
    rw [Double.value_eq_of_beq (y := Zero.zero) finite origin zero]
    exact NearestScalar.value_zero.ge

/-- A mass that is infinite or positive is aimed at. -/
theorem aim_massive {α : Type} [Scalar α] [HasValue α] [NearestScalar α] {values : List α}
    (natural : 0 ≤ sum (values.filter (isEligible zeros)))
    (massive : isFinite (sum (values.filter (isEligible zeros))) = true →
      0 < value (sum (values.filter (isEligible zeros)))) :
    aim zeros values = sum (values.filter (isEligible zeros)) := by
  apply if_neg
  intro massless
  have total := NearestScalar.isFinite_between OrderedScalar.isFinite_zero
    OrderedScalar.isFinite_zero natural massless
  rw [NearestScalar.le_iff total OrderedScalar.isFinite_zero, NearestScalar.value_zero] at massless
  exact absurd (massive total) (not_lt.mpr massless)

theorem mass_natural (numbers : ∀ x ∈ values, isFinite x = true) :
    Zero.zero ≤ sum (values.filter (isEligible zeros)) :=
  zero_le_sum fun x member => (value_nonneg_iff (numbers x (List.mem_of_mem_filter member))).mp
    (eligible_natural numbers x member)

variable (unit : Within 1 floor) (short : values.length < 2 ^ 60)
  (numbers : ∀ x ∈ values, isFinite x = true)
include unit short numbers

theorem start_steady (total : isFinite (sum (values.filter (isEligible zeros))) = true) :
    ∃ peak, Steady floor (aim zeros values) peak (values.map (start zeros floor)) := by
  by_cases barren : values.filter (isEligible zeros) = []
  · have noFree {e : Entry Float} (listed : e ∈ values.map (start zeros floor))
        (free : e.isFree = true) : False := by
      have eligible := (start_free listed free).1
      rw [barren] at eligible
      cases eligible
    exact ⟨0, start_numbers numbers, ⟨fun e listed free => (noFree listed free).elim,
      fun e listed free => (noFree listed free).elim,
      fun e listed free => (noFree listed free).elim⟩,
      fun e listed free => (noFree listed free).elim⟩
  obtain ⟨p, top, greatest⟩ := exists_greatest barren
  have crest := start_crest unit.finite numbers top greatest
  refine ⟨value p, start_numbers numbers, crest, fun e listed free => ?_⟩
  have natural : ∀ x ∈ values.filter (isEligible zeros), 0 ≤ value x := eligible_natural numbers
  have finite {x : Float} (member : x ∈ values.filter (isEligible zeros)) : isFinite x = true :=
    numbers x (List.mem_of_mem_filter member)
  obtain ⟨part, -⟩ := start_free listed free
  have less : value e.value ≤ value (sum (values.filter (isEligible zeros))) := by
    rw [← NearestScalar.le_iff (finite part) total]
    exact le_sum (fun x member => (value_nonneg_iff (finite member)).mp (natural x member)) _ part
  rw [aim_massive (mass_natural numbers) fun _ =>
    unit.least.trans_lt ((crest.above e listed free).trans_le less)]
  exact Double.sum_le (finite top) ((List.length_filter_le _ _).trans_lt short)
    (fun x member => ⟨finite member, natural x member, greatest x member⟩) (natural p top) total

/-- Some eligible value is above the floor if their total is infinite. -/
theorem exists_scaled (infinite : isFinite (sum (values.filter (isEligible zeros))) = false) :
    scaled zeros floor values ≠ [] := by
  intro empty
  have low (x : Float) (member : x ∈ values.filter (isEligible zeros)) : Within 1 x := by
    obtain ⟨listed, eligible⟩ := List.mem_filter.mp member
    have finite := numbers x listed
    have under : x ≤ floor := by
      have high := List.filter_eq_nil_iff.mp empty x listed
      simpa [eligible] using high
    refine ⟨finite, eligible_natural numbers x member, ?_⟩
    exact ((NearestScalar.le_iff finite unit.finite).mp under).trans unit.most
  have small : (2 : ℝ) ^ 186 * 1 ≤ limit := by
    rw [mul_one]
    exact two_pow_le_limit (by norm_num)
  have total := within_sum .one zero_le_one small ((List.length_filter_le _ _).trans_lt short) low
  exact Bool.false_ne_true (infinite.symm.trans total.finite)

end

/-- The eligible total is past the greatest double, or it is that one and some value is too large to
be scaled up to it. -/
def Overflows (zeros : Bool) (floor : Float) (values : List Float) : Prop :=
  isFinite (sum (values.filter (isEligible zeros))) = false ∨
  sum (values.filter (isEligible zeros)) = maxFinite ∧
    ∃ x ∈ scaled zeros floor values,
      isFinite (x * (maxFinite / sum (scaled zeros floor values))) = false

instance (zeros : Bool) (floor : Float) (values : List Float) :
    Decidable (Overflows zeros floor values) :=
  inferInstanceAs (Decidable (_ ∨ _))

/-- A total that is the greatest double, of an entry below the floor and others above it that add up
to a little less in their own order. -/
example : Overflows true (0.5 / 8) (1e-300 :: Double.assemble false 2046 0xFFFFFFFFFFFFE ::
    List.replicate 6 (Double.assemble false 1992 0)) := by decide +kernel

section
variable {zeros : Bool} {values : List Float} (unit : Within 1 floor)
  (filled : 0 < values.length) (short : values.length < 2 ^ 60)
  (numbers : ∀ x ∈ values, isFinite x = true)
include unit filled short numbers

theorem start_infinite (infinite : isFinite (sum (values.filter (isEligible zeros))) = false) :
    ∃ y ∈ passes floor (aim zeros values) values.length (values.map (start zeros floor)),
      isFinite y = false := by
  obtain ⟨n, size⟩ := Nat.exists_eq_add_one_of_ne_zero filled.ne'
  have natural : Zero.zero ≤ sum (values.filter (isEligible zeros)) := mass_natural numbers
  obtain ⟨x, high⟩ := List.exists_mem_of_ne_nil _ (exists_scaled unit short numbers infinite)
  obtain ⟨e, member, -⟩ := List.mem_map.mp (free_start zeros floor values ▸ high)
  obtain ⟨listed, free⟩ := List.mem_filter.mp member
  obtain ⟨p, top, greatest⟩ := exists_greatest (List.ne_nil_of_mem (start_free listed free).1)
  rw [size, aim_massive natural fun total => absurd (total.symm.trans infinite) Bool.noConfusion]
  exact passes_infinite unit ((List.length_map _).trans_lt short) (start_numbers numbers)
    (start_crest unit.finite numbers top greatest) (Double.eq_infinity natural infinite) listed
    free n

/-- At the greatest double, the values above the floor decide. -/
theorem start_greatest (top : sum (values.filter (isEligible zeros)) = maxFinite) :
    (∀ y ∈ passes floor (aim zeros values) values.length (values.map (start zeros floor)),
      isFinite y = true) ↔ ∀ x ∈ scaled zeros floor values,
        isFinite (x * (maxFinite / sum (scaled zeros floor values))) = true := by
  have total : isFinite (sum (values.filter (isEligible zeros))) = true :=
    top ▸ Double.isFinite_maxFinite
  have positive : 0 < value (sum (values.filter (isEligible zeros))) := by
    rw [top, Double.value_maxFinite]
    exact greatest_pos
  have aimed : aim zeros values = maxFinite :=
    (aim_massive (mass_natural numbers) fun _ => positive).trans top
  obtain ⟨n, size⟩ := Nat.exists_eq_add_one_of_ne_zero filled.ne'
  obtain ⟨peak, steady⟩ := start_steady unit short numbers total
  rw [aimed] at steady ⊢
  rw [size, passes_greatest unit ((List.length_map _).trans_lt short) Double.isFinite_maxFinite
    Double.value_maxFinite steady, freeMass, free_start]
  exact forall_free_start (P := fun x =>
    isFinite (x * (maxFinite / sum (scaled zeros floor values))) = true)

omit filled in
theorem start_finite_low (total : isFinite (sum (values.filter (isEligible zeros))) = true)
    (low : sum (values.filter (isEligible zeros)) ≠ maxFinite) (n : Nat) :
    ∀ y ∈ passes floor (aim zeros values) n (values.map (start zeros floor)),
      isFinite y = true := by
  obtain ⟨peak, steady⟩ := start_steady unit short numbers total
  have less : value (sum (values.filter (isEligible zeros))) < greatest := by
    apply lt_of_le_of_ne ((le_abs_self _).trans (reduced_of_isFinite total).abs_le_greatest)
    intro top
    exact low (Double.eq_of_value total Double.isFinite_maxFinite (top.trans_ne greatest_pos.ne')
      (top.trans Double.value_maxFinite.symm))
  have short' : (values.map (start zeros floor)).length < 2 ^ 60 :=
    (List.length_map _).trans_lt short
  rcases aim_cases zeros values with one | same
  · have unity : value (One.one : Float) = 1 := NearestScalar.value_one
    rw [one] at steady ⊢
    exact passes_finite n unit OrderedScalar.isFinite_one (zero_le_one.trans_eq unity.symm)
      (unity.trans_le ((zpow_zero 2).symm.trans_le (Double.two_pow_le_second (by norm_num))))
      short' steady
  · rw [same] at steady ⊢
    exact passes_finite n unit total ((value_nonneg_iff total).mpr (mass_natural numbers))
      ((reduced_of_isFinite total).le_second less) short' steady

theorem passes_finite_iff :
    (∀ y ∈ passes floor (aim zeros values) values.length (values.map (start zeros floor)),
      isFinite y = true) ↔ ¬ Overflows zeros floor values := by
  unfold Overflows
  cases total : isFinite (sum (values.filter (isEligible zeros))) with
  | false =>
    obtain ⟨y, member, infinite⟩ := start_infinite unit filled short numbers total
    exact ⟨fun all => absurd ((all y member).symm.trans infinite) Bool.noConfusion,
      fun finite => absurd (.inl rfl) finite⟩
  | true =>
    by_cases top : sum (values.filter (isEligible zeros)) = maxFinite
    · rw [start_greatest unit filled short numbers top]
      simp [top]
    · exact iff_of_true (start_finite_low unit short numbers total top _) (by simp [top])

end

/-! ### Enforcing -/

theorem level_finite_double {zeros : Bool} {values : List Float} (short : values.length < 2 ^ 60)
    (numbers : ∀ x ∈ values, isFinite x = true) : ∀ y ∈ level zeros values, isFinite y = true := by
  intro y member
  obtain ⟨x, listed, rfl⟩ := List.mem_map.mp member
  split
  · rename_i eligible
    exact (within_one.share (List.countP_pos_iff.mpr ⟨x, listed, eligible⟩)
      (List.countP_le_length.trans_lt short)).finite
  · exact numbers x listed

theorem not_overflows_of_none {zeros : Bool} {values : List Float}
    (ineligible : values.any (isEligible zeros) = false) : ¬ Overflows zeros floor values := by
  have empty : values.filter (isEligible zeros) = [] :=
    List.filter_eq_nil_iff.mpr (List.any_eq_false.mp ineligible)
  unfold Overflows
  rw [empty]
  rintro (infinite | ⟨same, -⟩)
  · exact absurd infinite (by decide +kernel)
  · exact absurd same (by decide +kernel)

end SeededChoice.Floor

namespace SeededChoice.Operation

open Scalar HasValue

/-- A floor between zero and one on finite doubles succeeds, and leaves finite doubles exactly if it
scales no total past the greatest double. -/
theorem floor_finite_iff {b : Buffer Float} {given : Argument Float} {minimum : Float}
    (zeros : Bool) (flat : b.rows = none) (writable : b.storage.Writable)
    (faithful : b.storage.Faithful) (nonempty : b.entries ≠ []) (short : b.entries.length < 2 ^ 60)
    (numbers : ∀ x ∈ b.entries, isFinite x = true) (read : given.toReal = .ok minimum)
    (unit : Within 1 minimum) :
    ∃ ys, (floor given zeros).step b = (.ok (.status .success), { b with entries := ys }) ∧
      ys.length = b.entries.length ∧
      ((∀ y ∈ ys, isFinite y = true) ↔ ¬ (0 < value minimum ∧ ¬ Floor.uniformThreshold < minimum ∧
        Floor.Overflows zeros (minimum / ofNat b.entries.length) b.entries)) := by
  have length := Buffer.length_flat flat
  have size := List.length_pos_of_ne_nil nonempty
  have planned := Floor.enforce_accepts zeros read (length.trans_ne size.ne')
    (inUnitInterval_iff_within.mpr unit) numbers
  have fits := Floor.enforce_fits planned
  refine ⟨_, ?_, Update.length_applied fits, ?_⟩
  · rw [step, plan, planned]
    exact Buffer.perform_faithful flat writable faithful fits
  · split
    · rename_i idle
      refine iff_of_true numbers ?_
      rintro ⟨positive, -, overflows⟩
      rcases Bool.or_eq_true _ _ ▸ idle with ineligible | zero
      · exact Floor.not_overflows_of_none (by simpa using ineligible) overflows
      · have origin : isFinite (Zero.zero : Float) = true := OrderedScalar.isFinite_zero
        have same := Double.value_eq_of_beq (y := Zero.zero) unit.finite origin zero
        exact positive.ne' (same.trans NearestScalar.value_zero)
    · rename_i busy
      have positive : 0 < value minimum := by
        by_contra low
        exact busy ((Bool.or_eq_true _ _).mpr (.inr (DefiniteScalar.beq_zero unit.natural
          fun above => low ((value_pos_iff unit.finite).mpr above))))
      split
      · rename_i uniform
        exact iff_of_true (Floor.level_finite_double short numbers) fun active => active.2.1 uniform
      · rename_i steady
        rw [length]
        show (∀ y ∈ Floor.passes _ (Floor.aim _ _) _ _, _) ↔ _
        rw [Floor.passes_finite_iff (unit.share size short) size short numbers]
        simp only [positive, steady, not_false_eq_true, true_and]

/-- A total not far below the greatest double. -/
theorem floor_finite_iff_of_two :
    ∃ ys : List Float, (floor (.real 0.1) true).step (Buffer.ofList [1e308, 7e307]) =
        (.ok (.status .success), Buffer.ofList ys) ∧
      ys.length = 2 ∧ ∀ y ∈ ys, isFinite y = true := by
  have numbers : ∀ x ∈ [(1e308 : Float), 7e307], isFinite x = true := by decide +kernel
  have unit : Within 1 (0.1 : Float) := inUnitInterval_iff_within.mp (by decide +kernel)
  have read : (Argument.real (0.1 : Float)).toReal = .ok 0.1 := rfl
  obtain ⟨ys, stepped, two, finite⟩ := floor_finite_iff (b := Buffer.ofList [1e308, 7e307]) true rfl
    (by decide) rfl (List.cons_ne_nil _ _) (by decide) numbers read unit
  refine ⟨ys, stepped, two, finite.mpr ?_⟩
  rintro ⟨-, -, overflows⟩
  exact absurd overflows (by decide +kernel)

/-- Two entries whose total is past the greatest double. -/
theorem huge_entries_undefined :
    (∀ x ∈ [(1e308 : Float), 1e308], isFinite x = true) ∧
    inUnitInterval (0.1 : Float) = true ∧
    (floor (.real 0.1) false).step (Buffer.ofList [(1e308 : Float), 1e308]) =
      (.ok (.status .success), Buffer.ofList [Double.nan, Double.nan]) ∧
    isFinite Double.nan = false := by
  have numbers : ∀ x ∈ [(1e308 : Float), 1e308], isFinite x = true := by decide +kernel
  have unit : inUnitInterval (0.1 : Float) = true := by decide +kernel
  refine ⟨numbers, unit, ?_, by decide +kernel⟩
  have read : (Argument.real (0.1 : Float)).toReal = .ok 0.1 := rfl
  have planned := Floor.enforce_accepts (b := Buffer.ofList [(1e308 : Float), 1e308]) false read
    (by decide) unit numbers
  have raised : Floor.raise (0.1 : Float) false (Buffer.ofList [(1e308 : Float), 1e308]).entries
      (Buffer.ofList [(1e308 : Float), 1e308]).length = [Double.nan, Double.nan] := by
    decide +kernel
  rw [if_neg, if_neg, raised] at planned
  · rw [step, plan, planned]
    rfl
  · decide +kernel
  · decide +kernel

end SeededChoice.Operation
