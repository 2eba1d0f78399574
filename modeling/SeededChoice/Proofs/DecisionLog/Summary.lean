import Mathlib.Algebra.Order.BigOperators.Group.List
import Mathlib.Algebra.Order.Field.Basic
import Mathlib.Data.List.Dedup
import SeededChoice.DecisionLog
import SeededChoice.Proofs.Exact.Sum
import SeededChoice.Proofs.Scalar.Extremes
import SeededChoice.Proofs.Sorted

/-!
# Summaries of a log

The aggregates of a summary are computed one by one from the records kept. In exact arithmetic they
agree with each other, and none of them depends on the order of the records.
-/

namespace SeededChoice

/-! ### Runs of a log -/

namespace DecisionLog

section
variable {α : Type} [Numeral α] {log : DecisionLog α}

/-- The log after records were logged, one after the other. -/
def run (log : DecisionLog α) (rs : List (Record α)) : DecisionLog α :=
  rs.foldl (fun log r => (log.add r).1) log

theorem add_records (r : Record α) :
    (log.add r).1.records = log.records ++ if log.diagnostic then [r] else [] := by
  rw [add]
  split <;> simp

theorem run_records (rs : List (Record α)) :
    (log.run rs).records = log.records ++ if log.diagnostic then rs else [] := by
  induction rs generalizing log with
  | nil => simp [run]
  | cons r rs ih =>
    have same : (log.add r).1.diagnostic = log.diagnostic := rfl
    rw [show log.run (r :: rs) = (log.add r).1.run rs from rfl, ih, add_records, same]
    split <;> simp

end

/-! ### Counts -/

section
variable {κ : Type} [DecidableEq κ] {keys others : List κ} {le : κ → κ → Bool}

theorem nodup_eraseDups (keys : List κ) : keys.eraseDups.Nodup := by
  match keys with
  | [] => simp
  | k :: rest =>
    rw [List.eraseDups_cons, List.nodup_cons]
    exact ⟨by simp, nodup_eraseDups _⟩
termination_by keys.length
decreasing_by
  exact Nat.lt_succ_of_le (List.length_filter_le _ _)

/-- The keys that occur, each of them once, do not depend on the order of the occurrences. -/
theorem eraseDups_perm (perm : keys.Perm others) : keys.eraseDups.Perm others.eraseDups := by
  refine (List.perm_ext_iff_of_nodup (nodup_eraseDups keys) (nodup_eraseDups others)).mpr ?_
  intro k
  rw [List.mem_eraseDups, List.mem_eraseDups, perm.mem_iff]

/-- Every occurrence is counted, and counted once. -/
theorem sum_counts (keys : List κ) : ((counts le keys).map Prod.snd).sum = keys.length := by
  have same : (keys.eraseDups.mergeSort le).Perm keys.dedup := by
    refine (keys.eraseDups.mergeSort_perm le).trans ?_
    refine (List.perm_ext_iff_of_nodup (nodup_eraseDups keys) keys.nodup_dedup).mpr ?_
    intro k
    rw [List.mem_eraseDups, List.mem_dedup]
  calc ((counts le keys).map Prod.snd).sum
      = ((keys.eraseDups.mergeSort le).map fun k => keys.count k).sum := by
        rw [counts, List.map_map]
        rfl
    _ = (keys.dedup.map fun k => keys.count k).sum := (same.map _).sum_eq
    _ = keys.length := List.sum_map_count_dedup_eq_length keys

/-- What a table says of a key is how often it occurs. -/
theorem lookup_counts (keys : List κ) (k : κ) :
    ((counts le keys).lookup k).getD 0 = keys.count k := by
  have listed : k ∈ keys.eraseDups.mergeSort le ↔ k ∈ keys := by
    rw [List.mem_mergeSort, List.mem_eraseDups]
  by_cases occurs : k ∈ keys
  · rw [counts, List.lookup_graph _ (listed.mpr occurs), Option.getD_some]
  · have absent : (counts le keys).lookup k = none := by
      rw [List.lookup_eq_none_iff]
      intro entry member
      obtain ⟨other, found, rfl⟩ := List.mem_map.mp member
      exact bne_iff_ne.mpr fun same => occurs (listed.mp (same ▸ found))
    rw [absent, Option.getD_none, List.count_eq_zero_of_not_mem occurs]

theorem counts_eq_of_perm [LE κ] [DecidableLE κ] [Std.IsLinearOrder κ] (perm : keys.Perm others) :
    counts (fun a b => decide (a ≤ b)) keys = counts (fun a b => decide (a ≤ b)) others := by
  rw [counts, counts, mergeSort_eq_of_perm (eraseDups_perm perm)]
  exact List.map_congr_left fun k _ => by rw [perm.count_eq]

end

end DecisionLog

/-! ### Records of real numbers -/

/-- A record read in exact arithmetic. -/
def Record.exact (r : Record ℝ) : Record Exact :=
  { r with
    duration := .finite r.duration
    minimumUniform := .finite r.minimumUniform
    probability := .finite r.probability }

section
variable (rs : List (Record ℝ))

theorem Record.map_probability_exact : (rs.map exact).map probability =
    (rs.map probability).map Exact.finite := by
  rw [List.map_map, List.map_map]
  rfl

theorem Record.map_duration_exact : (rs.map exact).map duration =
    (rs.map duration).map Exact.finite := by
  rw [List.map_map, List.map_map]
  rfl

theorem Record.map_chosen_exact : (rs.map exact).map chosen = rs.map chosen := by
  rw [List.map_map]
  rfl

theorem Record.map_strategy_exact : (rs.map exact).map strategy = rs.map strategy := by
  rw [List.map_map]
  rfl

/-- A decision is for the first action or moved away from it. -/
theorem Record.moved_add_count :
    (rs.countP fun r => r.chosen ≠ 0) + (rs.map chosen).count 0 = rs.length := by
  rw [List.length_eq_countP_add_countP fun r : Record ℝ => r.chosen ≠ 0, List.count,
    List.countP_map]
  congr 2
  funext r
  exact Bool.eq_iff_iff.mpr (by simp)

end

/-- The aggregates of a record and those after it, as real numbers. -/
noncomputable def Summary.ofReals (first : Record ℝ) (rest : List (Record ℝ)) : Summary Exact :=
  let records := first :: rest
  let moved := records.countP fun r => r.chosen ≠ 0
  { decisions := records.length
    meanProbability := .finite ((records.map Record.probability).sum / records.length)
    leastProbability := .finite ((rest.map Record.probability).foldl min first.probability)
    meanDuration := .finite ((records.map Record.duration).sum / records.length)
    greatestDuration := .finite ((rest.map Record.duration).foldl max first.duration)
    indexCounts := DecisionLog.counts (fun a b => decide (a ≤ b)) (records.map Record.chosen)
    strategyCounts := DecisionLog.counts (fun a b => decide (a ≤ b)) (records.map Record.strategy)
    moved
    movedRate := .finite (moved / records.length) }

/-- The aggregates do not depend on the order of the records. -/
theorem Summary.ofReals_eq_of_perm {first other : Record ℝ} {rest others : List (Record ℝ)}
    (perm : (first :: rest).Perm (other :: others)) :
    ofReals first rest = ofReals other others := by
  have total (figure : Record ℝ → ℝ) :
      ((first :: rest).map figure).sum = ((other :: others).map figure).sum :=
    (perm.map figure).sum_eq
  have least := Scalar.foldl_min_eq_of_perm (perm.map Record.probability)
  have greatest := Scalar.foldl_max_eq_of_perm (perm.map Record.duration)
  have indexes := DecisionLog.counts_eq_of_perm (perm.map Record.chosen)
  have strategies := DecisionLog.counts_eq_of_perm (perm.map Record.strategy)
  simp only [ofReals, perm.length_eq, perm.countP_eq, total, least, greatest, indexes, strategies]

/-! ### Means and extremes -/

section
variable {xs : List ℝ} {x : ℝ} (nonempty : xs ≠ [])
include nonempty

theorem cast_length_pos : (0 : ℝ) < xs.length := Nat.cast_pos.mpr (List.length_pos_iff.mpr nonempty)

theorem le_mean (below : ∀ y ∈ xs, x ≤ y) : x ≤ xs.sum / xs.length := by
  rw [le_div_iff₀ (cast_length_pos nonempty), mul_comm, ← nsmul_eq_mul]
  exact List.card_nsmul_le_sum xs x below

theorem mean_le (above : ∀ y ∈ xs, y ≤ x) : xs.sum / xs.length ≤ x := by
  rw [div_le_iff₀ (cast_length_pos nonempty), mul_comm, ← nsmul_eq_mul]
  exact List.sum_le_card_nsmul xs x above

end

/-! ### Exact summaries -/

variable [Exponential]

namespace Exact

theorem smallest_finite (x : ℝ) (rest : List ℝ) :
    Scalar.smallest (finite x) (rest.map finite) = finite (rest.foldl min x) :=
  Scalar.smallest_map finite_lt x rest

theorem largest_finite (x : ℝ) (rest : List ℝ) :
    Scalar.largest (finite x) (rest.map finite) = finite (rest.foldl max x) :=
  Scalar.largest_map finite_lt x rest

theorem mean_finite {xs : List ℝ} (nonempty : xs ≠ []) :
    DecisionLog.mean (xs.map finite) = finite (xs.sum / xs.length) := by
  rw [DecisionLog.mean, addsExactly_finite.sumInOrder trivial, List.length_map, ofNat_eq,
    finite_div _ (cast_length_pos nonempty).ne']

end Exact

theorem DecisionLog.summary?_eq_ofReals {log : DecisionLog Exact} {first : Record ℝ}
    {rest : List (Record ℝ)} (kept : log.records = (first :: rest).map Record.exact) :
    log.summary? = some (.ofReals first rest) := by
  have length : ((first :: rest).length : ℝ) ≠ 0 := Nat.cast_ne_zero.mpr (by simp)
  have mean (figure : Record ℝ → ℝ) : mean (((first :: rest).map figure).map Exact.finite) =
      .finite (((first :: rest).map figure).sum / (first :: rest).length) := by
    rw [Exact.mean_finite (by simp), List.length_map]
  have least : Scalar.smallest first.exact.probability ((rest.map Record.probability).map .finite) =
      .finite ((rest.map Record.probability).foldl min first.probability) :=
    Exact.smallest_finite _ _
  have greatest : Scalar.largest first.exact.duration ((rest.map Record.duration).map .finite) =
      .finite ((rest.map Record.duration).foldl max first.duration) :=
    Exact.largest_finite _ _
  rw [summary?, kept, List.map_cons]
  simp only [← List.map_cons, Record.map_probability_exact, Record.map_duration_exact,
    Record.map_chosen_exact, Record.map_strategy_exact, mean, least, greatest, List.length_map,
    List.countP_map, Exact.ofNat_eq, Exact.finite_div _ length]
  rfl

/-- What a summary owes to the records, and what its aggregates owe to each other. -/
structure Summary.Consistent (rs : List (Record ℝ)) (t : Summary Exact) : Prop where
  decisions : t.decisions = rs.length
  /-- The number that every mean and rate is a quotient by. -/
  divisor : 0 < t.decisions
  indexes : (t.indexCounts.map Prod.snd).sum = t.decisions
  index (i : Int) : (t.indexCounts.lookup i).getD 0 = (rs.map Record.chosen).count i
  strategies : (t.strategyCounts.map Prod.snd).sum = t.decisions
  strategy (name : String) :
    (t.strategyCounts.lookup name).getD 0 = (rs.map Record.strategy).count name
  moved : t.moved + (t.indexCounts.lookup 0).getD 0 = t.decisions
  movedRate : t.movedRate * Scalar.ofNat t.decisions = Scalar.ofNat t.moved
  leastProbability : ∃ r ∈ rs, t.leastProbability = .finite r.probability ∧
    ∀ q ∈ rs, r.probability ≤ q.probability
  meanProbability : t.meanProbability = .finite ((rs.map Record.probability).sum / rs.length)
  least_le_mean : t.leastProbability ≤ t.meanProbability
  greatestDuration : ∃ r ∈ rs, t.greatestDuration = .finite r.duration ∧
    ∀ q ∈ rs, q.duration ≤ r.duration
  meanDuration : t.meanDuration = .finite ((rs.map Record.duration).sum / rs.length)
  mean_le_greatest : t.meanDuration ≤ t.greatestDuration

theorem Summary.ofReals_consistent (first : Record ℝ) (rest : List (Record ℝ)) :
    (ofReals first rest).Consistent (first :: rest) := by
  have length : ((first :: rest).length : ℝ) ≠ 0 := Nat.cast_ne_zero.mpr (by simp)
  obtain ⟨attainedLeast, below⟩ :=
    Scalar.isLeast_foldl_min first.probability (rest.map Record.probability)
  obtain ⟨attainedGreatest, above⟩ :=
    Scalar.isGreatest_foldl_max first.duration (rest.map Record.duration)
  rw [← List.map_cons] at attainedLeast attainedGreatest below above
  obtain ⟨least, leastListed, leastFigure⟩ := List.mem_map.mp attainedLeast
  obtain ⟨greatest, greatestListed, greatestFigure⟩ := List.mem_map.mp attainedGreatest
  have leastMean := le_mean (List.map_eq_nil_iff.not.mpr (List.cons_ne_nil first rest)) below
  have greatestMean := mean_le (List.map_eq_nil_iff.not.mpr (List.cons_ne_nil first rest)) above
  rw [List.length_map] at leastMean greatestMean
  exact {
    decisions := rfl
    divisor := Nat.succ_pos _
    indexes := (DecisionLog.sum_counts _).trans (List.length_map _)
    index := DecisionLog.lookup_counts _
    strategies := (DecisionLog.sum_counts _).trans (List.length_map _)
    strategy := DecisionLog.lookup_counts _
    moved := (congrArg _ (DecisionLog.lookup_counts _ 0)).trans (Record.moved_add_count _)
    movedRate := congrArg Exact.finite (div_mul_cancel₀ _ length)
    leastProbability := ⟨least, leastListed, congrArg Exact.finite leastFigure.symm,
      fun q listed => leastFigure ▸ below (List.mem_map_of_mem listed)⟩
    meanProbability := rfl
    least_le_mean := (Exact.finite_le _ _).mpr leastMean
    greatestDuration := ⟨greatest, greatestListed, congrArg Exact.finite greatestFigure.symm,
      fun q listed => greatestFigure ▸ above (List.mem_map_of_mem listed)⟩
    meanDuration := rfl
    mean_le_greatest := (Exact.finite_le _ _).mpr greatestMean }

/-! ### Summaries of what was logged -/

namespace DecisionLog

theorem summary?_eq_none_iff {log : DecisionLog Exact} :
    log.summary? = none ↔ log.records = [] := by
  rw [summary?]
  split
  · rename_i empty
    exact iff_of_true rfl empty
  · rename_i kept
    rw [kept]
    exact iff_of_false nofun nofun

theorem summary?_consistent {log : DecisionLog Exact} {rs : List (Record ℝ)} {t : Summary Exact}
    (kept : log.records = rs.map Record.exact) (made : log.summary? = some t) :
    t.Consistent rs := by
  cases rs with
  | nil => cases (summary?_eq_none_iff.mpr kept).symm.trans made
  | cons first rest =>
    obtain rfl := Option.some.inj ((summary?_eq_ofReals kept).symm.trans made)
    exact Summary.ofReals_consistent first rest

theorem summary?_eq_of_perm {log other : DecisionLog Exact} {rs others : List (Record ℝ)}
    (kept : log.records = rs.map Record.exact) (otherKept : other.records = others.map Record.exact)
    (perm : rs.Perm others) : log.summary? = other.summary? := by
  cases rs with
  | nil =>
    obtain rfl := perm.nil_eq
    rw [summary?_eq_none_iff.mpr kept, summary?_eq_none_iff.mpr otherKept]
  | cons first rest =>
    cases others with
    | nil => cases perm.eq_nil
    | cons second others =>
      rw [summary?_eq_ofReals kept, summary?_eq_ofReals otherKept, Summary.ofReals_eq_of_perm perm]

/-- A log that keeps no record, or was given none, has no summary. Any other has one: its aggregates
agree with the records and with each other, no quotient is one by zero, and the order in which the
records were logged does not matter. -/
theorem summary_consistent (s : Settings Exact) (rs : List (Record ℝ)) :
    (((ofSettings s).run (rs.map Record.exact)).summary? = none ↔ s.diagnostic = false ∨ rs = []) ∧
    (∀ t, ((ofSettings s).run (rs.map Record.exact)).summary? = some t → t.Consistent rs) ∧
    ∀ others, rs.Perm others → ((ofSettings s).run (rs.map Record.exact)).summary? =
      ((ofSettings s).run (others.map Record.exact)).summary? := by
  have records (rs : List (Record ℝ)) : ((ofSettings s).run (rs.map Record.exact)).records =
      (if s.diagnostic then rs else []).map Record.exact := by
    rw [run_records]
    exact (List.nil_append _).trans (apply_ite (List.map Record.exact) _ rs []).symm
  refine ⟨?_, ?_, ?_⟩
  · rw [summary?_eq_none_iff, records, List.map_eq_nil_iff]
    cases s.diagnostic <;> simp
  · intro t made
    cases keeps : s.diagnostic with
    | false =>
      rw [summary?_eq_none_iff.mpr (by rw [records, keeps]; rfl)] at made
      cases made
    | true =>
      refine summary?_consistent ?_ made
      rw [records, keeps]
      rfl
  · intro others perm
    refine summary?_eq_of_perm (records rs) (records others) ?_
    split
    · exact perm
    · exact .nil

end DecisionLog

/-- Three decisions between two actions, the second of which moved away from the first action. -/
noncomputable def Record.three : List (Record ℝ) :=
  let half : ℝ := 1 / (1 + 1)
  let one : Record ℝ :=
    { timestamp := 0, duration := 1, strategy := "bag", actionCount := 2, minimumUniform := 0,
      normalized := true, seed := 7, chosen := 0, probability := half, digest := "" }
  [one, { one with duration := half, chosen := 1, probability := half / (1 + 1) },
    { one with strategy := "softmax" }]

theorem DecisionLog.summary_consistent_of_three :
    ∃ t, ((ofSettings { Settings.standard with diagnostic := true }).run
        (Record.three.map Record.exact)).summary? = some t ∧
      ((ofSettings { Settings.standard with diagnostic := true }).run
        (Record.three.reverse.map Record.exact)).summary? = some t ∧
      t.Consistent Record.three ∧ t.decisions = 3 ∧ t.moved = 1 := by
  obtain ⟨empty, consistent, reordered⟩ :=
    summary_consistent { Settings.standard with diagnostic := true } Record.three
  have kept : ¬ (true = false ∨ Record.three = []) := by simp [Record.three]
  obtain ⟨t, made⟩ := Option.ne_none_iff_exists'.mp (empty.not.mpr kept)
  have told := consistent t made
  have first : (Record.three.map Record.chosen).count 0 = 2 := rfl
  have moved := told.moved
  rw [told.index, first, told.decisions] at moved
  refine ⟨t, made, ?_, told, told.decisions, Nat.add_right_cancel moved⟩
  rw [← reordered _ Record.three.reverse_perm.symm, made]

end SeededChoice
