import SeededChoice.Operation
import SeededChoice.Proofs.Argument.Lists
import SeededChoice.Proofs.Distribution.Generators
import SeededChoice.Proofs.Double.Whole

/-!
# Votes and their counts

A bag of votes gives each action the part of the votes that are for it, in whatever order they came,
and the counts of the votes give the same, as long as counts are added without rounding.
-/

namespace SeededChoice.Generator

section
variable {α : Type} [Scalar α] {votes others : List Int} {given other : Argument α} {n : Nat}

theorem bag_read (read : given.toIndexes = .ok votes) : bag given n =
    if votes.length = 0 ∨ n = 0 ∨ ∃ v ∈ votes, v < 0 then .ok (.refuse .badRange)
    else if ∃ v ∈ votes, (n : Int) ≤ v then .ok (.refuse .sizeMismatch)
    else .ok (.accept (.assign ((tally votes n).map fun count =>
      Scalar.ofNat count / Scalar.ofNat votes.length))) := by
  have missing : (votes.isEmpty || n = 0) = true ↔ votes.length = 0 ∨ n = 0 := by
    simp
  have negative : votes.any (· < 0) = true ↔ ∃ v ∈ votes, v < 0 := by
    simp
  have beyond : votes.any ((n : Int) ≤ ·) = true ↔ ∃ v ∈ votes, (n : Int) ≤ v := by
    simp
  simp only [bag, read, missing, negative, beyond, bind, Except.bind, ← or_assoc]
  split
  · rename_i empty
    rw [if_pos (Or.inl empty)]
    rfl
  · rename_i valid
    simp only [valid, false_or]
    rfl

/-! ### The order of votes -/

theorem tally_perm (perm : votes.Perm others) : tally votes n = tally others n :=
  List.map_congr_left fun i _ => perm.count_eq (Int.ofNat i)

theorem bag_perm (perm : votes.Perm others) (read : given.toIndexes = .ok votes)
    (otherRead : other.toIndexes = .ok others) : bag given n = bag other n := by
  simp only [bag_read read, bag_read otherRead, perm.length_eq, perm.mem_iff, tally_perm perm]

/-! ### Counts -/

section
variable (nonempty : votes ≠ []) (nonzero : n ≠ 0) (inside : ∀ v ∈ votes, 0 ≤ v ∧ v < n)
include nonempty nonzero inside

theorem bag_inside (read : given.toIndexes = .ok votes) : bag given n =
    .ok (.accept (.assign ((tally votes n).map fun count =>
      Scalar.ofNat count / Scalar.ofNat votes.length))) := by
  have natural : ¬ ∃ v ∈ votes, v < 0 := fun ⟨v, listed, negative⟩ =>
    absurd (inside v listed).1 (not_le.mpr negative)
  have below : ¬ ∃ v ∈ votes, (n : Int) ≤ v := fun ⟨v, listed, beyond⟩ =>
    absurd (inside v listed).2 (not_lt.mpr beyond)
  have counted : votes.length ≠ 0 := (List.length_pos_of_ne_nil nonempty).ne'
  rw [bag_read read, if_neg (not_or.mpr ⟨counted, not_or.mpr ⟨nonzero, natural⟩⟩), if_neg below]

/-- All votes are counted, so that the total of the counts is the number of votes. -/
theorem bagOfCounts_tally {most : Nat} (counting : Scalar.CountsTo α most)
    (few : votes.length ≤ most) {counts : Argument α}
    (tallied : counts.toWeights = .ok ((tally votes n).map Scalar.ofNat)) :
    bagOfCounts counts n = .ok (.accept (.assign ((tally votes n).map fun count =>
      Scalar.ofNat count / Scalar.ofNat votes.length))) := by
  have length : (tally votes n).length = n := by
    rw [tally, List.length_map, List.length_range]
  have counted : ∀ count ∈ tally votes n, count ≤ most := by
    intro count listed
    obtain ⟨i, -, rfl⟩ := List.mem_map.mp listed
    exact List.count_le_length.trans few
  have total : (tally votes n).sum = votes.length := sum_tally inside
  have added := counting.adds.sum (total.trans_le few)
  rw [total] at added
  have valid : (!((tally votes n).map (Scalar.ofNat : Nat → α)).all Scalar.isFinite ||
      ((tally votes n).map (Scalar.ofNat : Nat → α)).any fun x => decide (x < 0)) = false := by
    rw [Bool.or_eq_false_iff, Bool.not_eq_false', List.all_eq_true, List.any_eq_false]
    refine ⟨fun x listed => ?_, fun x listed => ?_⟩ <;>
      obtain ⟨count, member, rfl⟩ := List.mem_map.mp listed
    · exact counting.finite (counted count member)
    · rw [decide_eq_true_iff]
      exact counting.natural (counted count member)
  have filled : (((tally votes n).map (Scalar.ofNat : Nat → α)).isEmpty || decide (n = 0)) =
      false := by
    rw [Bool.or_eq_false_iff, decide_eq_false_iff_not]
    refine ⟨?_, nonzero⟩
    rw [List.isEmpty_eq_false_iff]
    intro empty
    rw [← length, ← List.length_map (f := (Scalar.ofNat : Nat → α)), empty] at nonzero
    exact nonzero rfl
  have positive := counting.positive (List.length_pos_of_ne_nil nonempty) few
  simp only [bagOfCounts, tallied, bind, Except.bind, filled, valid, List.length_map, length, added,
    positive, Bool.false_eq_true, if_false, ne_eq, not_true_eq_false, List.map_map]
  rfl

end

end

/-! ### Carrying out -/

open Argument Operation

section
variable {α : Type} [Scalar α] {votes others : List Int} {b : Buffer α} {n : Nat}

theorem step_bag_refused (refused : votes = [] ∨ ∃ v ∈ votes, v < 0) :
    (Operation.bag (list (votes.map integer))).step b = (.ok (.status .badRange), b) := by
  have due : votes.length = 0 ∨ b.length = 0 ∨ ∃ v ∈ votes, v < 0 := by
    rcases refused with rfl | negative
    · exact .inl rfl
    · exact .inr (.inr negative)
  rw [step, plan, bag_read (toIndexes_integers votes), if_pos due]
  rfl

theorem step_bag_beyond (length : b.length ≠ 0) (nonempty : votes ≠ [])
    (natural : ∀ v ∈ votes, 0 ≤ v) (beyond : ∃ v ∈ votes, (b.length : Int) ≤ v) :
    (Operation.bag (list (votes.map integer))).step b = (.ok (.status .sizeMismatch), b) := by
  have valid : ¬ (votes.length = 0 ∨ b.length = 0 ∨ ∃ v ∈ votes, v < 0) := by
    rintro (blank | empty | ⟨v, listed, negative⟩)
    · exact nonempty (List.length_eq_zero_iff.mp blank)
    · exact length empty
    · exact absurd (natural v listed) (not_le.mpr negative)
  rw [step, plan, bag_read (toIndexes_integers votes), if_neg valid, if_pos beyond]
  rfl

theorem step_bag_perm (perm : votes.Perm others) :
    (Operation.bag (list (others.map integer))).step b =
      (Operation.bag (list (votes.map integer))).step b := by
  simp only [step, plan, bag_perm perm.symm (toIndexes_integers others) (toIndexes_integers votes)]

/-- What is counted without rounding makes the same plan, whatever the buffer does with it. -/
theorem step_bagOfCounts {most : Nat} (counting : Scalar.CountsTo α most) (length : b.length ≠ 0)
    (nonempty : votes ≠ []) (inside : ∀ v ∈ votes, 0 ≤ v ∧ v < b.length)
    (few : votes.length ≤ most) :
    (Operation.bagOfCounts (list ((tally votes b.length).map fun count : Nat => integer count))).step b =
      (Operation.bag (list (votes.map integer))).step b := by
  have counts : ((tally votes b.length).map fun count : Nat => (count : Int)).map Scalar.ofInt? =
      ((tally votes b.length).map (Scalar.ofNat : Nat → α)).map some := by
    rw [List.map_map, List.map_map]
    apply List.map_congr_left
    intro count listed
    obtain ⟨i, -, rfl⟩ := List.mem_map.mp listed
    exact counting.ofInt? (List.count_le_length.trans few)
  have tallied := (toReals_ok (toReals_integers counts)).2
  rw [List.map_map, Function.comp_def] at tallied
  have planned := bagOfCounts_tally nonempty length inside counting few tallied
  simp only [step, plan, planned, bag_inside nonempty length inside (toIndexes_integers votes)]

end

/-- Votes for the actions of a buffer and their counts, one for each action, leave the same buffer:
each action gets the part of the votes that are for it, and the counts add up to the number of votes,
also in doubles as far as these count. The order of votes does not show, whatever they are for. No
vote or a negative one is out of range, and otherwise one for no action is a mismatch of sizes. -/
theorem bags_agree [Exponential] {b : Buffer Exact} {n : Nat} (flat : b.rows = none)
    (writable : b.storage.Writable) (keeps : b.storage.KeepsReals) (nonempty : n ≠ 0)
    (size : b.entries.length = n) :
    (∀ votes : List Int, votes ≠ [] → (∀ v ∈ votes, 0 ≤ v ∧ v < n) →
      (Operation.bag (list (votes.map integer))).step b = (.ok (.status .success),
        { b with entries := (List.range n).map fun i : Nat =>
            .finite (votes.count (i : Int) / votes.length) }) ∧
      (Operation.bagOfCounts (list ((List.range n).map fun i : Nat =>
          integer (votes.count (i : Int))))).step b = (.ok (.status .success),
        { b with entries := (List.range n).map fun i : Nat =>
            .finite (votes.count (i : Int) / votes.length) }) ∧
      ((List.range n).map fun i : Nat => votes.count (i : Int)).sum = votes.length ∧
      ((List.range n).map fun i : Nat => (votes.count (i : Int) / votes.length : ℝ)).sum = 1 ∧
      ∀ c : Buffer Float, c.length = n → votes.length ≤ 2 ^ 53 →
        (Operation.bagOfCounts (list ((List.range n).map fun i : Nat =>
            integer (votes.count (i : Int))))).step c =
          (Operation.bag (list (votes.map integer))).step c) ∧
    (∀ votes others : List Int, votes.Perm others →
      (Operation.bag (list (others.map integer))).step b =
        (Operation.bag (list (votes.map integer))).step b ∧
      ∀ c : Buffer Float, (Operation.bag (list (others.map integer))).step c =
        (Operation.bag (list (votes.map integer))).step c) ∧
    (∀ votes : List Int, (votes = [] ∨ ∃ v ∈ votes, v < 0) →
      (Operation.bag (list (votes.map integer))).step b = (.ok (.status .badRange), b)) ∧
    ∀ votes : List Int, votes ≠ [] → (∀ v ∈ votes, 0 ≤ v) → (∃ v ∈ votes, (n : Int) ≤ v) →
      (Operation.bag (list (votes.map integer))).step b = (.ok (.status .sizeMismatch), b) := by
  obtain rfl : b.length = n := (Buffer.length_flat flat).trans size
  refine ⟨fun votes voted inside => ?_, fun votes others perm => ⟨step_bag_perm perm, fun c =>
    step_bag_perm perm⟩, fun votes => step_bag_refused, fun votes =>
    step_bag_beyond nonempty⟩
  have bagged : (Operation.bag (list (votes.map integer))).step b = (.ok (.status .success),
      { b with entries := ((List.range b.length).map (voteShare votes)).map .finite }) := by
    have fits : (Update.assign (((List.range b.length).map (voteShare votes)).map Exact.finite)).Fits
        b.entries.length := by
      rw [Update.Fits, List.length_map, List.length_map, List.length_range, size]
    rw [step, plan, bag_inside voted nonempty inside (toIndexes_integers votes),
      voteShares_eq voted, perform_answering]
    rw [Buffer.perform_exact flat writable keeps fits]
    rfl
  have counts {α : Type} (m : Nat) : (List.range m).map (fun i : Nat =>
      (integer (votes.count (i : Int)) : Argument α)) =
        (tally votes m).map fun count : Nat => integer count := by
    rw [tally, List.map_map]
    rfl
  rw [List.map_map, Function.comp_def] at bagged
  refine ⟨bagged, ?_, sum_tally inside, (isDistribution_voteShares voted inside).total, ?_⟩
  · rw [counts, step_bagOfCounts (Exact.countsTo votes.length) nonempty voted inside (le_refl _)]
    exact bagged
  · intro c length few
    rw [counts, ← length]
    rw [← length] at nonempty inside
    exact step_bagOfCounts Double.countsTo nonempty voted inside few

theorem bags_agree_of_three :
    (Operation.bag (list [integer 2, integer 0, integer 2])).step
        (Buffer.ofList [Exact.finite 0, Exact.finite 0, Exact.finite 0]) =
      (.ok (.status .success),
        Buffer.ofList [Exact.finite (1 / 3), Exact.finite 0, Exact.finite (2 / 3)]) ∧
    (Operation.bagOfCounts (list [integer 1, integer 0, integer 2])).step
        (Buffer.ofList [Exact.finite 0, Exact.finite 0, Exact.finite 0]) =
      (.ok (.status .success),
        Buffer.ofList [Exact.finite (1 / 3), Exact.finite 0, Exact.finite (2 / 3)]) ∧
    (Operation.bag (list [integer 9, integer (-1)])).step
        (Buffer.ofList [Exact.finite 0, Exact.finite 0, Exact.finite 0]) =
      (.ok (.status .badRange),
        Buffer.ofList [Exact.finite 0, Exact.finite 0, Exact.finite 0]) := by
  have size : (Buffer.ofList [Exact.finite 0, Exact.finite 0, Exact.finite 0]).entries.length = 3 :=
    rfl
  obtain ⟨agree, -, refused, -⟩ := bags_agree rfl (by decide) (by decide) three_ne_zero size
  obtain ⟨bagged, counted, -⟩ := agree [2, 0, 2] (by decide) (by decide)
  have shares : ((List.range 3).map fun i : Nat => Exact.finite
      (([2, 0, 2] : List Int).count (i : Int) / ([2, 0, 2] : List Int).length)) =
        [Exact.finite (1 / 3), Exact.finite 0, Exact.finite (2 / 3)] := by
    simp [List.range_succ]
  rw [shares] at bagged counted
  exact ⟨bagged, counted, refused [9, -1] (.inr ⟨-1, by decide, by decide⟩)⟩

end SeededChoice.Generator
