import SeededChoice.Proofs.Double.Proportion
import SeededChoice.Proofs.Exact.Order
import SeededChoice.Proofs.Floor.Crest
import SeededChoice.Proofs.Floor.Passes

/-!
# How often the passes go on

A pass that goes on pins an entry that was free, so there are at most as many of them as there are
free entries at the start. Where all entries start free they are scaled by their total over itself,
and the first pass is the last. So the passes never begin more often than there are entries,
whichever way the scalars round.
-/

namespace SeededChoice.Floor

open Scalar

/-! ### Passes that go on -/

section
variable {α : Type} [Scalar α] {floor target : α} {entries more : List (Entry α)}

/-- Some free entries are pinned, and nothing else changes. -/
structure Pins (entries more : List (Entry α)) : Prop where
  each : List.Forall₂ (fun e g => g = e ∨ e.isFree = true ∧ g = { e with role := .pinned })
    entries more
  moved : ∃ p ∈ entries.zip more, p.1.isFree = true ∧ p.2.isPinned = true

theorem sinks_free {factor : α} {e : Entry α} (sunk : sinks floor factor e = true) :
    e.isFree = true :=
  (Bool.and_eq_true_iff.mp sunk).1

theorem again_eq (passed : pass floor target entries = .again more) :
    more = entries.map (fun e =>
      if sinks floor (ratio floor target entries) e then { e with role := .pinned } else e) ∧
    ∃ e ∈ entries, sinks floor (ratio floor target entries) e = true := by
  rcases pass_cases floor target entries with ended | ⟨again, sunk⟩ | ⟨ended, -⟩
  · rw [ended] at passed
    cases passed
  · rw [again] at passed
    injection passed with same
    exact ⟨same.symm, sunk⟩
  · rw [ended] at passed
    cases passed

theorem pins_of_again (passed : pass floor target entries = .again more) : Pins entries more := by
  obtain ⟨rfl, e, listed, sunk⟩ := again_eq passed
  constructor
  · rw [List.forall₂_map_right_iff, List.forall₂_same]
    intro g _
    split
    · rename_i low
      exact .inr ⟨sinks_free low, rfl⟩
    · exact .inl rfl
  · rw [← List.map_prod_left_eq_zip]
    refine ⟨_, List.mem_map.mpr ⟨e, listed, rfl⟩, sinks_free sunk, ?_⟩
    rw [if_pos sunk]
    rfl

/-- A pass that goes on leaves fewer entries free. -/
theorem countP_isFree_again (passed : pass floor target entries = .again more) :
    more.countP Entry.isFree < entries.countP Entry.isFree := by
  obtain ⟨rfl, e, listed, sunk⟩ := again_eq passed
  generalize ratio floor target entries = factor at sunk ⊢
  have kept : ∀ g ∈ entries, (Entry.isFree ∘ fun e =>
      if sinks floor factor e then { e with role := .pinned } else e) g = true ↔
        (g.isFree && !sinks floor factor g) = true := by
    intro g _
    rw [Function.comp_apply]
    split
    · rename_i low
      simp [low, Entry.isFree]
    · rename_i high
      simp [high]
  rw [List.countP_map, List.countP_congr kept]
  exact countP_unsunk_lt (List.any_eq_true.mpr ⟨e, listed, by rw [sinks_free sunk, sunk]; rfl⟩)

end

/-! ### Runs of passes -/

section
variable {α : Type} [Scalar α] {floor target : α} {first entries more last : List (Entry α)}
  {k n : Nat}

/-- The entries that a pass starts from, after a number of passes that went on. -/
inductive Reached (floor target : α) (first : List (Entry α)) : Nat → List (Entry α) → Prop where
  | start : Reached floor target first 0 first
  | again {k : Nat} {entries more : List (Entry α)} (reached : Reached floor target first k entries)
    (passed : pass floor target entries = .again more) : Reached floor target first (k + 1) more

namespace Reached

theorem prepend (passed : pass floor target entries = .again more)
    (reached : Reached floor target more k last) : Reached floor target entries (k + 1) last := by
  induction reached with
  | start => exact .again .start passed
  | again _ next ih => exact .again ih next

/-- What a pass that goes on keeps holds wherever passes start. -/
theorem keeps {P : List (Entry α) → Prop} (reached : Reached floor target first k entries)
    (begun : P first)
    (kept : ∀ {entries more}, P entries → pass floor target entries = .again more → P more) :
    P entries := by
  induction reached with
  | start => exact begun
  | again _ passed ih => exact kept ih passed

/-- Each pass that went on took one of the entries that were free at first. -/
theorem countP_isFree_le (reached : Reached floor target first k entries) :
    k + entries.countP Entry.isFree ≤ first.countP Entry.isFree := by
  induction reached with
  | start => rw [Nat.zero_add]
  | again _ passed ih =>
    have fewer := countP_isFree_again passed
    omega

theorem eq_zero {values : List α} (ended : pass floor target first = .done values)
    (reached : Reached floor target first k entries) : k = 0 := by
  have stays : k = 0 ∧ entries = first := by
    induction reached with
    | start => exact ⟨rfl, rfl⟩
    | again _ passed ih =>
      rw [ih.2, ended] at passed
      cases passed
  exact stays.1

end Reached

variable (positive : 0 < n)
  (few : ∀ more, pass floor target first = .again more → first.countP Entry.isFree < n)
include positive few

theorem Reached.lt (reached : Reached floor target first k entries) : k < n := by
  cases passed : pass floor target first with
  | done values => exact (reached.eq_zero passed).trans_lt positive
  | again more => exact (Nat.le_of_add_right_le reached.countP_isFree_le).trans_lt (few more passed)

/-- As many passes as there are free entries, or one that ends at once, are enough. -/
theorem exists_last : ∃ k last, k < n ∧ Reached floor target first k last ∧
    pass floor target last = .done (passes floor target n first) := by
  induction n generalizing first with
  | zero => exact absurd positive (Nat.lt_irrefl 0)
  | succ n ih =>
    rw [passes]
    cases passed : pass floor target first with
    | done values => exact ⟨0, first, positive, .start, passed⟩
    | again more =>
      have fewer := countP_isFree_again passed
      have enough := few more passed
      obtain ⟨k, last, less, reached, ended⟩ := @ih more (by omega) fun _ _ => by omega
      exact ⟨k + 1, last, Nat.succ_lt_succ less, reached.prepend passed, ended⟩

end

/-! ### What all passes keep -/

section
variable {α : Type} [Scalar α] {floor target : α} {zeros : Bool} {values : List α}
  {entries more : List (Entry α)}

/-- The entries stand for the values, and the eligible ones are either free or pinned. -/
structure Parted (zeros : Bool) (values : List α) (entries : List (Entry α)) : Prop where
  values_eq : entries.map Entry.value = values
  parts : ∀ e ∈ entries, e.isFree = true ∨ e.isPinned = true ↔ isEligible zeros e.value = true
  apart : ∀ e ∈ entries, ¬ (e.isFree = true ∧ e.isPinned = true)

omit [Scalar α] in
theorem Entry.not_free_pinned (e : Entry α) : ¬ (e.isFree = true ∧ e.isPinned = true) := by
  rintro ⟨free, pinned⟩
  unfold Entry.isFree Entry.isPinned at *
  rw [of_decide_eq_true free] at pinned
  cases pinned

theorem parted_start (zeros : Bool) (floor : α) (values : List α) :
    Parted zeros values (values.map (start zeros floor)) := by
  refine ⟨?_, ?_, fun e _ => e.not_free_pinned⟩
  · rw [List.map_map]
    exact List.map_id' values
  · intro e listed
    obtain ⟨x, -, rfl⟩ := List.mem_map.mp listed
    unfold start Entry.isFree Entry.isPinned
    cases isEligible zeros x with
    | false => simp
    | true =>
      by_cases low : x ≤ floor
      · simp [low]
      · simp [low]

theorem Parted.again (parted : Parted zeros values entries)
    (passed : pass floor target entries = .again more) : Parted zeros values more := by
  obtain ⟨rfl, -⟩ := again_eq passed
  refine ⟨?_, ?_, fun e _ => e.not_free_pinned⟩
  · rw [← parted.values_eq, List.map_map]
    apply List.map_congr_left
    intro e _
    rw [Function.comp_apply]
    split <;> rfl
  · intro g listed
    obtain ⟨e, member, rfl⟩ := List.mem_map.mp listed
    have before := parted.parts e member
    split
    · rename_i low
      rw [sinks_free low] at before
      simpa [Entry.isFree, Entry.isPinned] using before
    · exact before

theorem free_pos_again (positive : ∀ e ∈ entries, e.isFree = true → 0 < e.value)
    (passed : pass floor target entries = .again more) :
    ∀ g ∈ more, g.isFree = true → 0 < g.value := by
  intro g listed free
  rw [(again_eq passed).1] at listed
  exact positive g ((mem_pinned listed).2 free).1 free

/-- A pass over some values begins with these entries, after `k` passes that went on. -/
def Begins (zeros : Bool) (floor : α) (values : List α) : Nat → List (Entry α) → Prop :=
  Reached floor (aim zeros values) (values.map (start zeros floor))

/-- What the passes over some values come to: they end with a result, and begin no more often than
there are values. Every pass starts from a partition of the eligible entries; where one is free, the
free mass is positive before it divides; and where it goes on, it pins a free entry. -/
structure EndsWithin (zeros : Bool) (floor : α) (values result : List α) : Prop where
  ended : ∃ k last, k < values.length ∧ Begins zeros floor values k last ∧
    pass floor (aim zeros values) last = .done result
  within : ∀ {k entries}, Begins zeros floor values k entries → k < values.length
  parted : ∀ {k entries}, Begins zeros floor values k entries → Parted zeros values entries
  divisor : ∀ {k entries}, Begins zeros floor values k entries →
    entries.any Entry.isFree = true → 0 < freeMass entries
  pins : ∀ {k entries more}, Begins zeros floor values k entries →
    pass floor (aim zeros values) entries = .again more → Pins entries more

end

/-! ### The first pass -/

section
variable {α : Type} [Scalar α] [ProportionalScalar α] {floor : α} {zeros : Bool} {values : List α}
  {entries : List (Entry α)}

theorem zero_lt_freeMass (positive : ∀ e ∈ entries, e.isFree = true → 0 < e.value)
    (free : entries.any Entry.isFree = true) : 0 < freeMass entries := by
  obtain ⟨e, listed, notHeld⟩ := List.any_eq_true.mp free
  have natural : ∀ x ∈ (entries.filter Entry.isFree).map Entry.value, 0 ≤ x := by
    intro x member
    obtain ⟨f, kept, rfl⟩ := List.mem_map.mp member
    obtain ⟨inside, freeToo⟩ := List.mem_filter.mp kept
    exact ComparableScalar.le_of_lt (positive f inside freeToo)
  have part : e.value ∈ (entries.filter Entry.isFree).map Entry.value :=
    List.mem_map.mpr ⟨e, List.mem_filter.mpr ⟨listed, notHeld⟩, rfl⟩
  exact OrderedScalar.lt_of_lt_of_le (positive e listed notHeld) (le_sum natural _ part)

variable (natural : 0 ≤ floor) (numbers : ∀ x ∈ values, isFinite x = true)
include natural numbers

theorem start_free_pos : ∀ e ∈ values.map (start zeros floor), e.isFree = true → 0 < e.value := by
  intro e listed free
  obtain ⟨part, above⟩ := start_free listed free
  by_contra massless
  have finite := numbers _ (List.mem_of_mem_filter part)
  have zero := OrderedScalar.le_of_not_lt finite OrderedScalar.isFinite_zero massless
  exact above (OrderedScalar.le_trans zero natural)

variable (finite : isFinite floor = true) (nonempty : values ≠ [])
include finite nonempty

section
variable (whole : ∀ e ∈ values.map (start zeros floor), e.isFree = true)
include whole

/-- Where all entries start free, the eligible mass is the free one, and nothing is taken of it. -/
theorem ratio_start_whole : ∃ total : α, 0 < total ∧
    freeMass (values.map (start zeros floor)) = total ∧
    ratio floor (aim zeros values) (values.map (start zeros floor)) = total / total := by
  have eligible : values.filter (isEligible zeros) = values := by
    rw [List.filter_eq_self]
    intro x member
    have listed : start zeros floor x ∈ values.map (start zeros floor) :=
      List.mem_map.mpr ⟨x, member, rfl⟩
    exact (List.mem_filter.mp (start_free listed (whole _ listed)).1).2
  have mass : freeMass (values.map (start zeros floor)) = sum values := by
    rw [freeMass, List.filter_eq_self.mpr whole, (parted_start zeros floor values).values_eq]
  obtain ⟨x, member⟩ := List.exists_mem_of_ne_nil values nonempty
  have listed : start zeros floor x ∈ values.map (start zeros floor) :=
    List.mem_map.mpr ⟨x, member, rfl⟩
  have massive : 0 < sum values := mass ▸ zero_lt_freeMass
    (start_free_pos natural numbers) (List.any_eq_true.mpr ⟨_, listed, whole _ listed⟩)
  have aimed : aim zeros values = sum values := by
    rw [aim, eligible, if_neg (fun massless => not_lt_of_le massless massive)]
  have unpinned : (values.map (start zeros floor)).countP Entry.isPinned = 0 := by
    rw [List.countP_eq_zero]
    exact fun e inside pinned => e.not_free_pinned ⟨whole e inside, pinned⟩
  refine ⟨sum values, massive, mass, ?_⟩
  rw [ratio, unpinned, mass, aimed, ProportionalScalar.sub_none finite massive]

/-- Where all entries start free, they are scaled by their total over itself, which sinks none. -/
theorem pass_start_whole :
    ∃ result, pass floor (aim zeros values) (values.map (start zeros floor)) = .done result := by
  obtain ⟨total, massive, mass, factor⟩ :=
    ratio_start_whole natural numbers finite nonempty whole
  obtain ⟨x, member⟩ := List.exists_mem_of_ne_nil values nonempty
  have listed : start zeros floor x ∈ values.map (start zeros floor) :=
    List.mem_map.mpr ⟨x, member, rfl⟩
  refine ⟨_, pass_settle listed (whole _ listed)
    (fun massless => not_lt_of_le (mass ▸ massless) massive) ?_⟩
  intro e inside
  obtain ⟨part, above⟩ := start_free inside (whole e inside)
  have number := numbers _ (List.mem_of_mem_filter part)
  have least : floor ≤ e.value := OrderedScalar.le_of_not_lt finite number
    fun below => above (ComparableScalar.le_of_lt below)
  have high := start_free_pos natural numbers e inside (whole e inside)
  rw [sinks, factor, whole e inside, Bool.true_and, decide_eq_false_iff_not]
  intro sunk
  exact ProportionalScalar.not_scaled_lt number (ComparableScalar.le_of_lt high) massive
    (OrderedScalar.lt_of_lt_of_le sunk least)

end

/-- If the first pass goes on, some entry was not free. -/
theorem few_free_start (more : List (Entry α))
    (passed : pass floor (aim zeros values) (values.map (start zeros floor)) = .again more) :
    (values.map (start zeros floor)).countP Entry.isFree < values.length := by
  rw [← List.length_map (start zeros floor)]
  apply List.countP_le_length.lt_of_ne
  intro all
  obtain ⟨result, ended⟩ :=
    pass_start_whole natural numbers finite nonempty (List.countP_eq_length.mp all)
  rw [ended] at passed
  cases passed

theorem endsWithin_passes : EndsWithin zeros floor values
    (passes floor (aim zeros values) values.length (values.map (start zeros floor))) := by
  have size := List.length_pos_of_ne_nil nonempty
  have few (more : List (Entry α))
      (passed : pass floor (aim zeros values) (values.map (start zeros floor)) = .again more) :
      (values.map (start zeros floor)).countP Entry.isFree < values.length :=
    few_free_start natural numbers finite nonempty more passed
  constructor
  · exact exists_last size few
  · exact fun reached => reached.lt size few
  · exact fun reached => reached.keeps (parted_start zeros floor values) Parted.again
  · exact fun reached free => zero_lt_freeMass
      (reached.keeps (start_free_pos natural numbers) free_pos_again) free
  · exact fun _ => pins_of_again

end

/-! ### Enforcing -/

/-- A floor that passes the checks on a buffer of finite entries ends within as many passes as
there are entries. -/
theorem enforce_ends_within_length {α : Type} [Scalar α] [ProportionalScalar α] {b : Buffer α}
    {given : Argument α} {minimum : α} (zeros : Bool) (read : given.toReal = .ok minimum)
    (unit : inUnitInterval minimum = true) (nonzero : b.length ≠ 0) (nonempty : b.entries ≠ [])
    (numbers : ∀ x ∈ b.entries, isFinite x = true) :
    enforce given zeros b = .ok (.accept
      (if !b.entries.any (isEligible zeros) || minimum == 0 then .keep
        else if uniformThreshold < minimum then .assign (level zeros b.entries)
        else .assign (raise minimum zeros b.entries b.length))) ∧
    EndsWithin zeros (minimum / ofNat b.length) b.entries
      (raise minimum zeros b.entries b.length) := by
  obtain ⟨⟨finite, natural⟩, -⟩ : (isFinite minimum = true ∧ 0 ≤ minimum) ∧ minimum ≤ 1 := by
    simpa [inUnitInterval] using unit
  obtain ⟨kept, least⟩ := ProportionalScalar.share finite natural (Nat.pos_of_ne_zero nonzero)
  exact ⟨enforce_accepts zeros read nonzero unit numbers,
    endsWithin_passes least numbers kept nonempty⟩

/-- A total past the greatest double, a floor below the least one, and exact halves. -/
theorem enforce_ends_within_length_of_two :
    EndsWithin false (0.1 / ofNat 2) [(1e308 : Float), 1e308] [Double.nan, Double.nan] ∧
    EndsWithin true (Zero.zero : Float) [5e-324, Zero.zero] [5e-324, Zero.zero] ∧
    EndsWithin true (.finite (1 / 2) / ofNat 2) [(1 : Exact), 0]
      (raise (.finite (1 / 2)) true [1, 0] 2) := by
  refine ⟨?_, ?_, ?_⟩
  · have read : (Argument.real (0.1 : Float)).toReal = .ok 0.1 := rfl
    have raised : raise (0.1 : Float) false (Buffer.ofList [(1e308 : Float), 1e308]).entries
        (Buffer.ofList [(1e308 : Float), 1e308]).length = [Double.nan, Double.nan] := by
      decide +kernel
    have ended := (enforce_ends_within_length (b := Buffer.ofList [(1e308 : Float), 1e308]) false
      read (by decide +kernel) (by decide) (List.cons_ne_nil _ _) (by decide +kernel)).2
    rwa [raised] at ended
  · have read : (Argument.real (5e-324 : Float)).toReal = .ok 5e-324 := rfl
    have raised : raise (5e-324 : Float) true (Buffer.ofList [(5e-324 : Float), Zero.zero]).entries
        (Buffer.ofList [(5e-324 : Float), Zero.zero]).length = [5e-324, Zero.zero] := by
      decide +kernel
    have underflow : (5e-324 : Float) /
        ofNat (Buffer.ofList [(5e-324 : Float), Zero.zero]).length = Zero.zero := by
      decide +kernel
    have ended := (enforce_ends_within_length (b := Buffer.ofList [(5e-324 : Float), Zero.zero])
      true read (by decide +kernel) (by decide) (List.cons_ne_nil _ _) (by decide +kernel)).2
    rwa [raised, underflow] at ended
  · have read : (Argument.real (Exact.finite (1 / 2))).toReal = .ok (.finite (1 / 2)) := rfl
    have unit : inUnitInterval (Exact.finite (1 / 2)) = true := by
      rw [Exact.inUnitInterval_iff]
      exact ⟨1 / 2, rfl, by norm_num, by norm_num⟩
    have numbers : ∀ x ∈ [(1 : Exact), 0], isFinite x = true := by
      intro x member
      rcases List.mem_pair.mp member with rfl | rfl
      · exact OrderedScalar.isFinite_one
      · exact OrderedScalar.isFinite_zero
    exact (enforce_ends_within_length (b := Buffer.ofList [(1 : Exact), 0]) true read unit
      (by decide) (List.cons_ne_nil _ _) numbers).2

end SeededChoice.Floor
