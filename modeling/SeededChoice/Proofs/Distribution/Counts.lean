import SeededChoice.Operation
import SeededChoice.Proofs.Buffer.Writing
import SeededChoice.Proofs.Distribution.Bounded
import SeededChoice.Proofs.Double.Error

/-!
# Counts of any size

Counts in doubles are divided by their total. As long as that is finite the greatest count keeps a
share, however small the others and however large the total. Past the greatest double the total is
infinite, and no action keeps anything.
-/

namespace SeededChoice

open Double Scalar HasValue

namespace Generator

/-- What counts that pass the checks are made into. -/
def countedUpdate {α : Type} [Scalar α] (counts : List α) (n : Nat) : Update α :=
  if sum counts == 0 then .fill (.real (uniformShare n)) else .assign (counts.map (· / sum counts))

theorem bagOfCounts_counted {α : Type} [Scalar α] [OrderedScalar α] {counts : List α}
    {given : Argument α} (read : given.toWeights = .ok counts) (nonempty : counts ≠ [])
    (numbers : ∀ x ∈ counts, isFinite x = true) (natural : ∀ x ∈ counts, 0 ≤ x) :
    bagOfCounts given counts.length = .ok (.accept (countedUpdate counts counts.length)) := by
  have length : counts.length ≠ 0 := (List.length_pos_of_ne_nil nonempty).ne'
  have finite : counts.all isFinite = true := List.all_eq_true.mpr numbers
  have unsigned : counts.any (fun x => decide (x < 0)) = false := by
    rw [List.any_eq_false]
    intro x listed
    rw [decide_eq_true_eq]
    exact not_lt_of_le (natural x listed)
  simp only [bagOfCounts, read, bind, Except.bind, List.isEmpty_eq_false_iff.mpr nonempty, length,
    finite, unsigned, decide_false, Bool.or_self, Bool.not_true, Bool.false_eq_true, if_false,
    ne_eq, not_true_eq_false, countedUpdate]
  split <;> rfl

theorem countedUpdate_massive {α : Type} [Scalar α] {counts : List α} {n : Nat}
    (total : (sum counts == 0) = false) :
    countedUpdate counts n = .assign (counts.map (· / sum counts)) := by
  rw [countedUpdate, total]
  rfl

theorem countedUpdate_fits {α : Type} [Scalar α] (counts : List α) :
    (countedUpdate counts counts.length).Fits counts.length := by
  unfold countedUpdate
  split
  · exact ⟨_, rfl⟩
  · exact List.length_map _

/-! ### Shares -/

/-- A part that is not too small is a positive number after rounding. -/
theorem div_pos_of_le {x y : Float} (left : isFinite x = true) (right : isFinite y = true)
    (positive : 0 < value y) (less : value x ≤ value y) (part : value y ≤ 2 ^ 210 * value x) :
    0 < value (x / y) := by
  have above : (2 : ℝ) ^ (-210 : Int) ≤ value x / value y := by
    rw [le_div_iff₀ positive, zpow_neg, inv_mul_le_iff₀ (by positivity)]
    exact part
  have below : value x / value y ≤ 1 := (div_le_one positive).mpr less
  have small : |value x / value y| ≤ greatest := by
    rw [abs_of_nonneg (le_trans (by positivity) above)]
    exact below.trans (two_pow_le_greatest (k := 0) (by norm_num))
  have rounded := rounded_div left right positive.ne' small
  exact lt_of_lt_of_le (by positivity)
    (rounded.2.ge ⟨1, -210, by norm_num, by norm_num, by norm_num⟩ above)

theorem value_one : value (One.one : Float) = 1 := NearestScalar.value_one

theorem uniformShare_pos {n : Nat} (positive : 0 < n) (short : n < 2 ^ 60) :
    0 < value (uniformShare n : Float) := by
  have count := within_ofNat (α := Float) short.le (by norm_num)
  have one := one_le_ofNat (α := Float) positive short.le (by norm_num)
  apply div_pos_of_le OrderedScalar.isFinite_one count.finite (zero_lt_one.trans_le one)
  · exact value_one.trans_le one
  · show _ ≤ _ * value One.one
    rw [value_one, mul_one]
    exact count.most.trans (pow_le_pow_right₀ one_le_two (by norm_num))

section
variable {counts : List Float} (nonempty : counts ≠ []) (short : counts.length < 2 ^ 60)
  (numbers : ∀ x ∈ counts, isFinite x = true) (natural : ∀ x ∈ counts, Zero.zero ≤ x)
include numbers natural

theorem share_within {x : Float} (listed : x ∈ counts) (total : isFinite (sum counts) = true)
    (positive : 0 < value (sum counts)) : Within 1 (x / sum counts) := by
  have least := (value_nonneg_iff (numbers x listed)).mpr (natural x listed)
  have less := (NearestScalar.le_iff (numbers x listed) total).mp (le_sum natural x listed)
  exact Within.over ⟨numbers x listed, least, less⟩ total positive

include nonempty short in
/-- The greatest count keeps a share of a finite total. -/
theorem exists_share_pos (total : isFinite (sum counts) = true)
    (positive : 0 < value (sum counts)) : ∃ x ∈ counts, 0 < value (x / sum counts) := by
  obtain ⟨p, listed, greatest⟩ := exists_greatest nonempty
  have least (x : Float) (member : x ∈ counts) : 0 ≤ value x :=
    (value_nonneg_iff (numbers x member)).mpr (natural x member)
  have each (x : Float) (member : x ∈ counts) : Within (value p) x :=
    ⟨numbers x member, least x member, greatest x member⟩
  have less := (NearestScalar.le_iff (numbers p listed) total).mp (le_sum natural p listed)
  exact ⟨p, listed, div_pos_of_le (numbers p listed) total positive less
    (sum_le (numbers p listed) short each (least p listed) total)⟩

theorem share_eq_zero {x : Float} (listed : x ∈ counts) (infinite : isFinite (sum counts) = false) :
    isFinite (x / sum counts) = true ∧ value (x / sum counts) = 0 :=
  div_infinite (numbers x listed) (eq_infinity (zero_le_sum natural) infinite)

include nonempty short in
theorem countedUpdate_applied {entries : List Float} (size : entries.length = counts.length) :
    (∀ p ∈ (countedUpdate counts counts.length).applied entries, Within 1 p) ∧
      ((∃ p ∈ (countedUpdate counts counts.length).applied entries, 0 < value p) ↔
        isFinite (sum counts) = true) := by
  have length := List.length_pos_of_ne_nil nonempty
  have total := zero_le_sum natural
  unfold countedUpdate
  split
  · rename_i zero
    -- No votes at all.
    have finite : isFinite (sum counts) = true :=
      NearestScalar.isFinite_between OrderedScalar.isFinite_zero OrderedScalar.isFinite_zero total
        (ComparableScalar.le_of_beq zero)
    obtain ⟨first, listed⟩ := List.exists_mem_of_length_pos (size.symm ▸ length)
    refine ⟨fun p member => ?_, fun _ => finite, fun _ =>
      ⟨_, List.mem_map.mpr ⟨first, listed, rfl⟩, uniformShare_pos length short⟩⟩
    obtain ⟨-, -, rfl⟩ := List.mem_map.mp member
    exact uniformShare_within length short
  · rename_i nonzero
    cases finite : isFinite (sum counts) with
    | true =>
      have positive : 0 < value (sum counts) := by
        by_contra low
        apply nonzero
        apply DefiniteScalar.beq_zero total
        rwa [← value_pos_iff finite]
      obtain ⟨x, listed, share⟩ := exists_share_pos nonempty short numbers natural finite positive
      refine ⟨fun p member => ?_, fun _ => rfl, fun _ =>
        ⟨_, List.mem_map.mpr ⟨x, listed, rfl⟩, share⟩⟩
      obtain ⟨x, listed, rfl⟩ := List.mem_map.mp member
      exact share_within numbers natural listed finite positive
    | false =>
      constructor
      · intro p member
        obtain ⟨x, listed, rfl⟩ := List.mem_map.mp member
        obtain ⟨number, zero⟩ := share_eq_zero numbers natural listed finite
        exact ⟨number, zero.ge, zero.trans_le zero_le_one⟩
      · refine ⟨fun ⟨p, member, positive⟩ => ?_, nofun⟩
        obtain ⟨x, listed, rfl⟩ := List.mem_map.mp member
        exact absurd positive (share_eq_zero numbers natural listed finite).2.not_gt

end

end Generator

namespace Operation

/-- Counts that pass the checks leave numbers between zero and one, and a positive one among them
exactly where their total is finite. -/
theorem counts_shared_iff {b : Buffer Float} {given : Argument Float} {counts : List Float}
    (flat : b.rows = none) (writable : b.storage.Writable) (faithful : b.storage.Faithful)
    (read : given.toWeights = .ok counts) (nonempty : counts ≠ [])
    (size : b.entries.length = counts.length) (short : counts.length < 2 ^ 60)
    (numbers : ∀ x ∈ counts, isFinite x = true) (natural : ∀ x ∈ counts, 0 ≤ value x) :
    ∃ ps, (bagOfCounts given).step b = (.ok (.status .success), { b with entries := ps }) ∧
      ps.length = b.entries.length ∧ (∀ p ∈ ps, Within 1 p) ∧
      ((∃ p ∈ ps, 0 < value p) ↔ isFinite (sum counts) = true) := by
  have least (x : Float) (listed : x ∈ counts) : Zero.zero ≤ x :=
    (value_nonneg_iff (numbers x listed)).mp (natural x listed)
  have fits : (Generator.countedUpdate counts counts.length).Fits b.entries.length :=
    size ▸ Generator.countedUpdate_fits counts
  obtain ⟨within, shared⟩ := Generator.countedUpdate_applied nonempty short numbers least size
  refine ⟨_, ?_, Update.length_applied fits, within, shared⟩
  rw [step, plan, Buffer.length_flat flat, size,
    Generator.bagOfCounts_counted read nonempty numbers least]
  exact Buffer.perform_faithful flat writable faithful fits

/-- A large count and the least of all. -/
theorem counts_shared_iff_of_two :
    ∃ ps : List Float, (bagOfCounts (.list [.real 1e308, .real 5e-324])).step
          (Buffer.ofList [0.5, 0.5]) = (.ok (.status .success), Buffer.ofList ps) ∧
      ps.length = 2 ∧ (∀ p ∈ ps, Within 1 p) ∧ ∃ p ∈ ps, 0 < value p := by
  have numbers : ∀ x ∈ [(1e308 : Float), 5e-324], isFinite x = true := by decide +kernel
  have least : ∀ x ∈ [(1e308 : Float), 5e-324], Zero.zero ≤ x := by decide +kernel
  have total : isFinite (sum [(1e308 : Float), 5e-324]) = true := by decide +kernel
  have read : (Argument.list [.real (1e308 : Float), .real 5e-324]).toWeights =
      .ok [1e308, 5e-324] := rfl
  obtain ⟨ps, stepped, two, within, shared⟩ := counts_shared_iff (b := Buffer.ofList [0.5, 0.5])
    rfl (by decide) rfl read (List.cons_ne_nil _ _) (by simp [Buffer.ofList]) (by decide) numbers
    fun x listed => (value_nonneg_iff (numbers x listed)).mpr (least x listed)
  exact ⟨ps, stepped, two, within, shared.mpr total⟩

/-- Two counts whose total is past the greatest double. -/
theorem huge_counts_lost :
    (∀ x ∈ [(1e308 : Float), 1e308], isFinite x = true ∧ Zero.zero ≤ x) ∧
    (bagOfCounts (.list [.real 1e308, .real 1e308])).step (Buffer.ofList [(0.5 : Float), 0.5]) =
      (.ok (.status .success), Buffer.ofList [Zero.zero, Zero.zero]) ∧
    ¬ ∃ p ∈ [(Zero.zero : Float), Zero.zero], Zero.zero < p := by
  have valid : ∀ x ∈ [(1e308 : Float), 1e308], isFinite x = true ∧ Zero.zero ≤ x := by
    decide +kernel
  have read : (Argument.list [.real (1e308 : Float), .real 1e308]).toWeights =
      .ok [1e308, 1e308] := rfl
  have planned := Generator.bagOfCounts_counted read (List.cons_ne_nil _ _)
    (fun x listed => (valid x listed).1) fun x listed => (valid x listed).2
  have total : (sum [(1e308 : Float), 1e308] == Zero.zero) = false := by decide +kernel
  have shares : [(1e308 : Float), 1e308].map (· / sum [1e308, 1e308]) = [Zero.zero, Zero.zero] := by
    decide +kernel
  rw [List.length_cons, List.length_singleton, Generator.countedUpdate_massive total, shares]
    at planned
  refine ⟨valid, ?_, by decide +kernel⟩
  have length : (Buffer.ofList [(0.5 : Float), 0.5]).length = 1 + 1 := rfl
  rw [step, plan, length, planned]
  rfl

end Operation

end SeededChoice
