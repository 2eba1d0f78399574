import SeededChoice.Decimal.Digits
import SeededChoice.Proofs.Double.Dyadic
import SeededChoice.Proofs.Stream.Jump

/-!
# Runs of a stream

A run takes and skips draws in any order. What it leaves is fixed by how many draws are behind it,
and the draw that comes next is the one that jumping ahead finds.
-/

namespace SeededChoice

/-- What a caller does to a stream. -/
inductive Move where
  | next
  | skip (n : Int)

/-- The number of draws that a move takes or skips; a refused skip counts nothing. -/
def Move.count : Move → Nat
  | next => 1
  | skip n => n.toNat

namespace Stream

open Function

section
variable {α : Type}

/-- The stream that started at a word and has `n` draws behind it. -/
def after (start : UInt64) (n : Nat) : Stream α :=
  { start, word := step.apply^[n] start, position := .whole n }

theorem ofWord_eq_after (w : UInt64) : (ofWord w : Stream α) = after w 0 := rfl

variable [Scalar α]

theorem next_after (start : UInt64) (n : Nat) :
    (after start n : Stream α).next = (drawAt start n, after start (n + 1)) := by
  rw [next, drawAt_eq]
  simp only [after, iterate_succ_apply', Position.next]

variable [Numeral α]

/-- Carries out a move: whether it is refused, and the stream after it. -/
def move (s : Stream α) : Move → Except Error Unit × Stream α
  | .next => (.ok (), s.next.2)
  | .skip n => s.skip (.integer n)

/-- The stream after a list of moves. -/
def run (s : Stream α) (moves : List Move) : Stream α := moves.foldl (fun s m => (s.move m).2) s

/-- The number of draws that a list of moves takes or skips. -/
def travelled (moves : List Move) : Nat := (moves.map Move.count).sum

theorem skip_negative (s : Stream α) {n : Int} (negative : n < 0) :
    s.skip (.integer n) = (.error (.negativeSkip (toString n)), s) := by
  have refused : (readSkip (.integer n) : Except Error (Nat × Position α)) =
      .error (.negativeSkip (toString n)) := by
    simp only [readSkip, Argument.toCounter?, if_pos negative]
    rfl
  simp only [skip, refused]

theorem skip_after (start : UInt64) (k n : Nat) :
    (after start k : Stream α).skip (.integer n) = (.ok (), after start (k + n)) := by
  have read : (readSkip (.integer n) : Except Error (Nat × Position α)) = .ok (n, .whole n) := by
    simp only [readSkip, Argument.toCounter?, if_neg (Int.not_lt.mpr (Int.natCast_nonneg n))]
    rfl
  simp only [skip, read, after, Position.add, Affine.apply_iterate, ← iterate_add_apply]
  rw [Nat.add_comm n k]

/-- One move adds its count to the draws behind the stream. -/
theorem move_after (start : UInt64) (n : Nat) (m : Move) :
    ((after start n : Stream α).move m).2 = after start (n + m.count) := by
  cases m with
  | next => rw [move, next_after, Move.count]
  | skip k =>
    rw [move, Move.count]
    rcases Int.lt_or_le k 0 with negative | natural
    · rw [skip_negative _ negative, show k.toNat = 0 by omega, Nat.add_zero]
    · obtain ⟨k, rfl⟩ := Int.eq_ofNat_of_zero_le natural
      rw [skip_after, Int.toNat_natCast]

theorem run_after (start : UInt64) (n : Nat) (moves : List Move) :
    (after start n : Stream α).run moves = after start (n + travelled moves) := by
  induction moves generalizing n with
  | nil => rfl
  | cons m rest ih =>
    show ((after start n : Stream α).move m).2.run rest = _
    rw [move_after, ih, travelled, travelled, List.map_cons, List.sum_cons, Nat.add_assoc]

theorem run_ofWord (start : UInt64) (moves : List Move) :
    (ofWord start : Stream α).run moves = after start (travelled moves) := by
  rw [ofWord_eq_after, run_after, Nat.zero_add]

theorem uniformOf_natural {seed : Seed} {start : UInt64} (accepted : seed.expand = .ok start)
    (n : Nat) : uniformOf seed (.integer n : Argument α) = .ok (uniformAt start n) := by
  have natural : ¬ (n : Int) < 0 := Int.not_lt.mpr (Int.natCast_nonneg n)
  simp only [uniformOf, Argument.toCounter?, if_neg natural, accepted]
  rfl

end

theorem value?_toUnit {draw : Nat} (small : draw < 2 ^ 23) :
    Double.value? (toUnit draw) = some ((draw : ℚ) / 2 ^ 23) := Double.value?_quotient small

theorem uniformOf_value_iff (w : UInt64) (n draw : Nat) :
    (∃ x : Float, uniformOf (.ofWord w) (.integer n) = .ok x ∧
      Double.value? x = some ((draw : ℚ) / 2 ^ 23)) ↔ drawAt w n = draw := by
  have small := drawAt_lt w n
  rw [uniformOf_natural (Seed.expand_ofWord w)]
  constructor
  · rintro ⟨x, made, value⟩
    rw [← Except.ok.inj made, uniformAt, value?_toUnit small] at value
    have same := Option.some.inj value
    rw [div_left_inj' (by norm_num)] at same
    exact_mod_cast same
  · rintro rfl
    exact ⟨_, rfl, value?_toUnit small⟩

/-- After any takes and skips, the position counts the draws that are behind, the word is the
congruential step repeated so often, and the next draw is the one found by jumping ahead: a whole
number of parts in `2 ^ 23`, which doubles hold exactly. A negative skip is refused and moves
nothing. So the position alone decides all later draws. -/
theorem run_reaches_position {α : Type} [Scalar α] [Numeral α] {seed : Seed} {start : UInt64}
    (accepted : seed.expand = .ok start) :
    ∃ s : Stream α, ofSeed seed = .ok s ∧ ∀ moves,
      (s.run moves).position = .whole (travelled moves) ∧
      (s.run moves).word.toNat =
        (fun x => (0xEECE66D5DEECE66D * x + 2147483647) % 2 ^ 64)^[travelled moves] start.toNat ∧
      uniformOf seed (.integer (travelled moves)) = .ok (toUnit (s.run moves).next.1 : α) ∧
      (s.run moves).next.1 < 2 ^ 23 ∧
      Double.value? (toUnit (s.run moves).next.1) = some (((s.run moves).next.1 : ℚ) / 2 ^ 23) ∧
      (∀ n : Int, n < 0 →
        (s.run moves).skip (.integer n) = (.error (.negativeSkip (toString n)), s.run moves)) ∧
      ∀ others, (s.run others).position = (s.run moves).position →
        ∀ k, ((s.run others).take k).1 = ((s.run moves).take k).1 := by
  refine ⟨ofWord start, by rw [ofSeed, accepted]; rfl, fun moves => ?_⟩
  have reached := run_ofWord (α := α) start moves
  have draw : ((ofWord start : Stream α).run moves).next.1 = drawAt start (travelled moves) := by
    rw [reached, next_after]
  have small := drawAt_lt start (travelled moves)
  refine ⟨by rw [reached, after], ?_, ?_, by rw [draw]; exact small, ?_,
    fun n negative => skip_negative _ negative, ?_⟩
  · rw [reached, after, toNat_iterate_step]
  · rw [uniformOf_natural accepted, draw, uniformAt]
  · rw [draw, value?_toUnit small]
  · intro others same k
    rw [run_ofWord, reached] at same
    have counts : travelled others = travelled moves := Position.whole.inj same
    rw [run_ofWord, reached, counts]

theorem run_reaches_position_of_word :
    (Seed.integer 12345).expand = .ok 12345 ∧
      ∃ s : Stream Float, ofSeed (.integer 12345) = .ok s ∧
        (s.run [.next, .skip 1000, .skip (-3), .next]).position = .whole 1002 := by
  have accepted : (Seed.integer 12345).expand = .ok 12345 := Seed.expand_ofWord 12345
  obtain ⟨s, opened, reaches⟩ := run_reaches_position (α := Float) accepted
  exact ⟨accepted, s, opened, (reaches [.next, .skip 1000, .skip (-3), .next]).1⟩

end Stream

end SeededChoice
