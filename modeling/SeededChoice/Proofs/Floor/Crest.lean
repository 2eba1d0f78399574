import SeededChoice.Floor
import SeededChoice.Proofs.Scalar.Nearest

/-!
# The greatest free entry

What a pass does with the entries, over scalars that round. Scaling keeps the order of entries, so
the greatest of those that are scaled is the last one to be held at the floor.
-/

namespace SeededChoice.Floor

open Scalar HasValue

variable {α : Type} [Scalar α] [HasValue α] {floor factor : α} {peak : ℝ} {entries : List (Entry α)}

/-! ### What a pass does -/

omit [HasValue α] in
theorem pass_cases (floor target : α) (entries : List (Entry α)) :
    pass floor target entries = .done (spread target entries) ∨
    (pass floor target entries = .again (entries.map fun e =>
        if sinks floor (ratio floor target entries) e then { e with role := .pinned } else e) ∧
      ∃ e ∈ entries, sinks floor (ratio floor target entries) e = true) ∨
    (pass floor target entries = .done (entries.map (settle floor (ratio floor target entries))) ∧
      ∀ e ∈ entries, sinks floor (ratio floor target entries) e = false) := by
  unfold pass
  split
  · exact .inl rfl
  dsimp only
  split
  · rename_i sunk
    exact .inr (.inl ⟨rfl, List.any_eq_true.mp sunk⟩)
  · rename_i floats
    rw [Bool.not_eq_true, List.any_eq_false] at floats
    exact .inr (.inr ⟨rfl, fun e listed => Bool.not_eq_true _ ▸ floats e listed⟩)

omit [HasValue α] in
theorem pass_settle {target : α} {e : Entry α} (listed : e ∈ entries) (free : e.isFree = true)
    (massive : ¬ freeMass entries ≤ 0)
    (floats : ∀ e ∈ entries, sinks floor (ratio floor target entries) e = false) :
    pass floor target entries =
      .done (entries.map (settle floor (ratio floor target entries))) := by
  have loose : entries.any Entry.isFree = true := List.any_eq_true.mpr ⟨e, listed, free⟩
  have steady : entries.any (sinks floor (ratio floor target entries)) = false :=
    List.any_eq_false.mpr fun e member => by
      rw [floats e member]
      exact Bool.false_ne_true
  rw [pass, loose, decide_eq_false massive]
  simp only [Bool.not_true, Bool.or_false, Bool.false_eq_true, if_false, steady]

omit [HasValue α] in
/-- What a pass that goes on holds at the floor keeps its value; what stays free did not sink. -/
theorem mem_pinned {g : Entry α} (listed : g ∈ entries.map fun e =>
    if sinks floor factor e then { e with role := .pinned } else e) :
    (∃ e ∈ entries, e.value = g.value) ∧
      (g.isFree = true → g ∈ entries ∧ sinks floor factor g = false) := by
  obtain ⟨e, member, rfl⟩ := List.mem_map.mp listed
  split
  · exact ⟨⟨e, member, rfl⟩, nofun⟩
  · rename_i floats
    exact ⟨⟨e, member, rfl⟩, fun _ => ⟨member, Bool.not_eq_true _ ▸ floats⟩⟩

omit [HasValue α] in
/-- A floor that passes the checks. -/
theorem enforce_accepts {b : Buffer α} {given : Argument α} {minimum : α} (zeros : Bool)
    (read : given.toReal = .ok minimum) (nonzero : b.length ≠ 0)
    (unit : inUnitInterval minimum = true) (numbers : ∀ x ∈ b.entries, isFinite x = true) :
    enforce given zeros b = .ok (.accept
      (if !b.entries.any (isEligible zeros) || minimum == 0 then .keep
        else if uniformThreshold < minimum then .assign (level zeros b.entries)
        else .assign (raise minimum zeros b.entries b.length))) := by
  have valid : (b.length = 0 || !inUnitInterval minimum) = false := by
    rw [unit, decide_eq_false nonzero]
    rfl
  simp only [enforce, read, bind, Except.bind, valid, List.all_eq_true.mpr numbers, Bool.not_true,
    Bool.false_eq_true, if_false]
  split_ifs
  · rfl
  · rfl
  · rfl

/-! ### The peak -/

/-- The free entries lie between the floor and the peak, and the peak is one of them. -/
structure Crest (floor : α) (peak : ℝ) (entries : List (Entry α)) : Prop where
  above : ∀ e ∈ entries, e.isFree = true → value floor < value e.value
  below : ∀ e ∈ entries, e.isFree = true → value e.value ≤ peak
  top : ∀ e ∈ entries, e.isFree = true → ∃ f ∈ entries, f.isFree = true ∧ value f.value = peak

/-- Pinning the entries that sink leaves the peak free, as long as any entry is. -/
theorem Crest.pin (crest : Crest floor peak entries)
    (rising : ∀ e ∈ entries, ∀ f ∈ entries, e.isFree = true → f.isFree = true →
      value e.value < value f.value → sinks floor factor e = false → sinks floor factor f = false) :
    Crest floor peak (entries.map fun e =>
      if sinks floor factor e then { e with role := .pinned } else e) := by
  constructor
  · exact fun g listed free => crest.above g ((mem_pinned listed).2 free).1 free
  · exact fun g listed free => crest.below g ((mem_pinned listed).2 free).1 free
  · intro g listed free
    obtain ⟨member, floats⟩ := (mem_pinned listed).2 free
    obtain ⟨f, top, freeTop, same⟩ := crest.top g member free
    rcases (crest.below g member free).eq_or_lt with highest | less
    · exact ⟨g, listed, free, highest⟩
    · have kept := rising g member f top free freeTop (same ▸ less) floats
      refine ⟨f, List.mem_map.mpr ⟨f, top, ?_⟩, freeTop, same⟩
      rw [if_neg (Bool.not_eq_true _ ▸ kept)]

variable [NearestScalar α]

/-- A greater entry does not sink where a lesser one floats. -/
theorem floats_of_lt {e f : Entry α} (finite : isFinite floor = true) (natural : 0 ≤ value floor)
    (unsigned : value floor = 0 → 0 ≤ value factor) (free : e.isFree = true)
    (freeTop : f.isFree = true) (positive : 0 < value e.value) (less : value e.value < value f.value)
    (product : IsNearest (value e.value * value factor) (e.value * factor))
    (productTop : IsNearest (value f.value * value factor) (f.value * factor))
    (floats : sinks floor factor e = false) : sinks floor factor f = false := by
  have reached : value floor ≤ value (e.value * factor) := by
    rw [sinks, free, Bool.true_and] at floats
    rw [← not_lt, ← lt_iff product.1 finite]
    exact of_decide_eq_false floats
  rw [sinks, freeTop, Bool.true_and, decide_eq_false_iff_not, lt_iff productTop.1 finite, not_lt]
  rcases lt_trichotomy (value factor) 0 with negative | zero | scaling
  · -- An entry that is scaled below zero floats on a floor of zero only, where none is.
    have sunk := product.le .zero (mul_nonpos_of_nonneg_of_nonpos positive.le negative.le)
    exact absurd (unsigned (le_antisymm (reached.trans sunk) natural)) (not_le.mpr negative)
  · rw [zero, mul_zero] at product productTop
    rwa [productTop.eq .zero, ← product.eq .zero]
  · exact reached.trans (product.mono productTop (mul_lt_mul_of_pos_right less scaling))

omit [NearestScalar α] in
theorem floors_le (unit : Within 1 floor) : 2 ^ 60 * value floor ≤ (2 : ℝ) ^ 60 :=
  mul_le_of_le_one_right (by positivity) unit.most

theorem isValue_floors (unit : Within 1 floor) : IsValue α (2 ^ 60 * value floor) := by
  apply IsValue.scale ⟨floor, unit.finite, rfl⟩ 60
  rw [abs_of_nonneg unit.least]
  exact (floors_le unit).trans (two_pow_le_limit (by norm_num))

/-- What the pinned entries take is not much beside the floor. -/
theorem pinned_within (unit : Within 1 floor) (short : entries.length < 2 ^ 60) :
    Within (2 ^ 60 * value floor) (floor * ofNat (entries.countP Entry.isPinned)) := by
  have count : Within (2 ^ 60) (ofNat (entries.countP Entry.isPinned) : α) :=
    within_ofNat (List.countP_le_length.trans short.le) (by norm_num)
  have least := mul_nonneg unit.least count.least
  have share : value floor * value (ofNat (entries.countP Entry.isPinned) : α) ≤
      2 ^ 60 * value floor := by
    rw [mul_comm]
    exact mul_le_mul_of_nonneg_right count.most unit.least
  have small : 2 ^ 60 * value floor ≤ limit :=
    (floors_le unit).trans (two_pow_le_limit (by norm_num))
  have product := NearestScalar.mul unit.finite count.finite
    (by rw [abs_of_nonneg least]; exact share.trans small)
  exact .of_nearest product (isValue_floors unit) least share

/-! ### The roles at the start -/

/-- What the passes aim at: the eligible mass, or one where there is none. -/
def aim {α : Type} [Scalar α] (zeros : Bool) (values : List α) : α :=
  if sum (values.filter (isEligible zeros)) ≤ 0 then 1 else sum (values.filter (isEligible zeros))

theorem aim_cases {α : Type} [Scalar α] (zeros : Bool) (values : List α) :
    aim zeros values = One.one ∨ aim zeros values = sum (values.filter (isEligible zeros)) := by
  unfold aim
  split
  · exact .inl rfl
  · exact .inr rfl

section
variable {zeros : Bool} {values : List α}

omit [HasValue α] [NearestScalar α] in
theorem start_free {e : Entry α} (listed : e ∈ values.map (start zeros floor))
    (free : e.isFree = true) : e.value ∈ values.filter (isEligible zeros) ∧ ¬ e.value ≤ floor := by
  obtain ⟨x, member, rfl⟩ := List.mem_map.mp listed
  have role : (start zeros floor x).role = .free := of_decide_eq_true free
  unfold start at role
  dsimp only at role
  split at role
  · cases role
  rename_i eligible
  split at role
  · cases role
  rename_i above
  have kept : isEligible zeros x = true := by simpa using eligible
  exact ⟨List.mem_filter.mpr ⟨member, kept⟩, above⟩

/-- Before the first pass, the greatest eligible value is the peak. -/
theorem start_crest {p : α} (finite : isFinite floor = true)
    (numbers : ∀ x ∈ values, isFinite x = true)
    (top : p ∈ values.filter (isEligible zeros))
    (greatest : ∀ x ∈ values.filter (isEligible zeros), value x ≤ value p) :
    Crest floor (value p) (values.map (start zeros floor)) := by
  have above {x : α} (member : x ∈ values) : ¬ x ≤ floor ↔ value floor < value x := by
    rw [NearestScalar.le_iff (numbers x member) finite, not_le]
  constructor
  · intro e listed free
    obtain ⟨part, high⟩ := start_free listed free
    exact (above (List.mem_of_mem_filter part)).mp high
  · exact fun e listed free => greatest _ (start_free listed free).1
  · intro e listed free
    obtain ⟨part, high⟩ := start_free listed free
    obtain ⟨member, eligible⟩ := List.mem_filter.mp top
    refine ⟨start zeros floor p, List.mem_map.mpr ⟨p, member, rfl⟩, ?_, rfl⟩
    have highest : ¬ p ≤ floor := (above member).mpr
      (((above (List.mem_of_mem_filter part)).mp high).trans_le (greatest _ part))
    simp [start, Entry.isFree, eligible, highest]

end

end SeededChoice.Floor
