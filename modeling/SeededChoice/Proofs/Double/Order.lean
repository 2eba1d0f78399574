import Mathlib.Data.Prod.Lex
import SeededChoice.Proofs.Double.Dyadic

/-!
# The order of doubles

Doubles are compared by the sign, the exponent and the mantissa of their unpacked form, in that
order of weight. The rank of a number puts these into one linear order, infinities included.
-/

namespace SeededChoice.Double

open Float.Model Float.Model.UnpackedFloat

/-- Where a number stands: its kind first, then its exponent, then its mantissa. -/
def rank : UnpackedFloat → ℤ ×ₗ ℤ ×ₗ ℤ
  | .infinity .negative => toLex (-2, toLex (0, 0))
  | .finite .negative m e _ => toLex (-1, toLex (-e, -m))
  | .zero _ | .notANumber => toLex (0, toLex (0, 0))
  | .finite .positive m e _ => toLex (1, toLex (e, m))
  | .infinity .positive => toLex (2, toLex (0, 0))

theorem compare_then_eq_lt (e f : Int) (m n : Nat) :
    (compare e f).then (compare m n) = .lt ↔ e < f ∨ e = f ∧ m < n := by
  rcases Int.lt_trichotomy e f with less | rfl | more
  · simp [Int.compare_eq_lt.mpr less, less]
  · simp [Nat.compare_eq_lt]
  · simp [Int.compare_eq_gt.mpr more]
    omega

theorem isLE_compare_then (e f : Int) (m n : Nat) :
    ((compare e f).then (compare m n)).isLE = true ↔ e < f ∨ e = f ∧ m ≤ n := by
  rcases Int.lt_trichotomy e f with less | rfl | more
  · simp [Int.compare_eq_lt.mpr less, less]
  · simp [Nat.isLE_compare]
  · simp [Int.compare_eq_gt.mpr more]
    omega

theorem swap_eq_lt (e f : Int) (m n : Nat) :
    ((compare e f).then (compare m n)).swap = .lt ↔ f < e ∨ e = f ∧ n < m := by
  rw [Ordering.swap_then, Int.compare_swap, Nat.compare_swap, compare_then_eq_lt, eq_comm]

theorem isLE_swap (e f : Int) (m n : Nat) :
    ((compare e f).then (compare m n)).swap.isLE = true ↔ f < e ∨ e = f ∧ n ≤ m := by
  rw [Ordering.swap_then, Int.compare_swap, Nat.compare_swap, isLE_compare_then, eq_comm]

theorem compare_sign (s t : Sign) : compare s t =
    match s, t with
    | .negative, .positive => .lt
    | .positive, .negative => .gt
    | _, _ => .eq := by
  cases s <;> cases t <;> rfl

theorem lt_iff_rank (a b : UnpackedFloat) :
    a.lt b = true ↔ a ≠ .notANumber ∧ b ≠ .notANumber ∧ rank a < rank b := by
  rcases a with ⟨_ | _⟩ | _ | ⟨_ | _⟩ | ⟨_ | _⟩ <;> rcases b with ⟨_ | _⟩ | _ | ⟨_ | _⟩ | ⟨_ | _⟩ <;>
    simp [UnpackedFloat.lt, UnpackedFloat.compare, rank, Prod.Lex.lt_iff, compare_then_eq_lt,
      swap_eq_lt, compare_sign, -Ordering.swap_eq_lt]

theorem le_iff_rank (a b : UnpackedFloat) :
    a.le b = true ↔ a ≠ .notANumber ∧ b ≠ .notANumber ∧ rank a ≤ rank b := by
  rcases a with ⟨_ | _⟩ | _ | ⟨_ | _⟩ | ⟨_ | _⟩ <;> rcases b with ⟨_ | _⟩ | _ | ⟨_ | _⟩ | ⟨_ | _⟩ <;>
    simp [UnpackedFloat.le, UnpackedFloat.compare, rank, Prod.Lex.le_iff, isLE_compare_then,
      isLE_swap, compare_sign, -Ordering.isLE_swap]

/-- Zero, or a number with a positive sign. -/
inductive Natural : UnpackedFloat → Prop where
  | zero (s : Sign) : Natural (.zero s)
  | finite {m : Nat} {e : Int} (positive : 0 < m) : Natural (.finite .positive m e positive)
  | infinity : Natural (.infinity .positive)

theorem zero_le_iff (s : Sign) (u : UnpackedFloat) :
    (UnpackedFloat.zero s).le u = true ↔ Natural u := by
  rw [le_iff_rank]
  constructor
  · rintro ⟨-, number, least⟩
    rcases u with ⟨_ | _⟩ | _ | s | ⟨_ | _⟩
    · simp [rank, Prod.Lex.le_iff] at least
    · exact .infinity
    · exact absurd rfl number
    · exact .zero s
    · simp [rank, Prod.Lex.le_iff] at least
    · exact .finite _
  · intro natural
    cases natural <;> simp [rank, Prod.Lex.le_iff]

theorem Natural.eq_zero {u : UnpackedFloat} (natural : Natural u)
    (small : ¬ (UnpackedFloat.zero .positive).lt u = true) : ∃ s, u = .zero s := by
  cases natural with
  | zero s => exact ⟨s, rfl⟩
  | finite _ => exact absurd rfl small
  | infinity => exact absurd rfl small

theorem Natural.compare_self {u : UnpackedFloat} (natural : Natural u) :
    u.compare u = some .eq := by
  cases natural with
  | zero s => rfl
  | infinity => rfl
  | finite _ => simp [UnpackedFloat.compare]

/-! ### Unpacked doubles -/

/-- A positive double as unpacking gives it, if its exponent is not too large. -/
structure Canonical (m : Nat) (e : Int) : Prop where
  pos : 0 < m
  most : m < 2 ^ 53
  low : -1074 ≤ e
  full : 2 ^ 52 ≤ m ∨ e = -1074

theorem Canonical.normal {m : Nat} {e : Int} (canonical : Canonical m e) (full : 2 ^ 52 ≤ m)
    (high : e ≤ 971) : Normal m e := ⟨full, canonical.most, canonical.low, high⟩

theorem unpack_finite {bits : BitVec 64} {s : Sign} {m : Nat} {e : Int} {positive : 0 < m}
    (unpacked : UnpackedFloat.unpack Format.binary64 bits = .finite s m e positive) :
    Canonical m e ∧ e ≤ 971 := by
  have fraction : (@unpackMantissa Format.binary64 bits).toNat < 2 ^ 52 := BitVec.isLt _
  have exponent : (@unpackExponent Format.binary64 bits).toNat < 2 ^ 11 := BitVec.isLt _
  unfold UnpackedFloat.unpack at unpacked
  dsimp only [Format.exponentBias] at unpacked
  split at unpacked
  · split at unpacked <;> cases unpacked
  rename_i notTop
  have high : (@unpackExponent Format.binary64 bits).toNat ≠ 2047 :=
    fun same => notTop (BitVec.eq_of_toNat_eq same)
  split at unpacked
  · rename_i bottom
    have low : (@unpackExponent Format.binary64 bits).toNat = 0 := congrArg BitVec.toNat bottom
    split at unpacked
    · cases unpacked
    · injection unpacked with _ mantissa scale
      refine ⟨⟨positive, by omega, by omega, Or.inr (by omega)⟩, by omega⟩
  · rename_i notBottom
    have low : (@unpackExponent Format.binary64 bits).toNat ≠ 0 :=
      fun same => notBottom (BitVec.eq_of_toNat_eq same)
    injection unpacked with _ mantissa scale
    have whole : 1 * 2 ^ 52 + (@unpackMantissa Format.binary64 bits).toNat = m :=
      (toNat_append 1#1 _).symm.trans mantissa
    refine ⟨⟨positive, by omega, by omega, Or.inl (by omega)⟩, by omega⟩

section
variable {m : Nat} {e : Int}

/-- A number survives packing if its exponent is not too large. -/
theorem unpack_pack (canonical : Canonical m e) (high : e ≤ 971) :
    (Float.Model.pack (.finite .positive m e canonical.pos)).unpack =
      .finite .positive m e canonical.pos := by
  by_cases full : 2 ^ 52 ≤ m
  · exact unpack_ofNormal (canonical.normal full high)
  have size : m < 2 ^ 52 := Nat.lt_of_not_le full
  obtain rfl : e = -1074 := canonical.full.resolve_left full
  have bits : m.log2 + 1 ≠ Format.binary64.mantissaBits := by
    have short := (Nat.log2_lt (Nat.ne_of_gt canonical.pos)).mpr size
    simp only [Format.mantissaBits]
    omega
  have fraction : (BitVec.ofNat 52 m).toNat = m := by
    rw [BitVec.toNat_ofNat, Nat.mod_eq_of_lt size]
  have nonzero : BitVec.ofNat 52 m ≠ 0#52 := by
    intro zero
    rw [zero] at fraction
    exact Nat.ne_of_gt canonical.pos fraction.symm
  have packed : UnpackedFloat.pack Format.binary64 (.finite .positive m (-1074) canonical.pos) =
      packComponents Format.binary64 .positive 0#11 (.ofNat 52 m) := by
    simp only [UnpackedFloat.pack, bits, if_false, Format.exponentBias]
    rfl
  show UnpackedFloat.unpack Format.binary64 (UnpackedFloat.pack Format.binary64 _) = _
  rw [packed]
  simp only [UnpackedFloat.unpack, unpackExponent_packComponents, unpackMantissa_packComponents,
    unpackSign_pack, nonzero, fraction]
  rfl

theorem unpack_pack_overflow (positive : 0 < m) (high : 971 < e) :
    (Float.Model.pack (.finite .positive m e positive)).unpack = .infinity .positive := by
  have top : 2 ^ Format.binary64.exponentBits ≤
      (e + Format.binary64.exponentBias + Format.binary64.mantissaBitsWithoutImplicit).toNat + 1 := by
    simp only [Format.exponentBias]
    omega
  show UnpackedFloat.unpack Format.binary64 (UnpackedFloat.pack Format.binary64 _) = _
  rw [UnpackedFloat.pack, if_pos top]
  rfl

theorem unpack_pack_natural (positive : 0 < m) (high : e ≤ 971) :
    Natural (Float.Model.pack (.finite .positive m e positive)).unpack ∧
      (Float.Model.pack (.finite .positive m e positive)).unpack.isFinite = true := by
  have packed : ∃ (exponent : BitVec 11) (fraction : BitVec 52), exponent ≠ -1#11 ∧
      UnpackedFloat.pack Format.binary64 (.finite .positive m e positive) =
        packComponents Format.binary64 .positive exponent fraction := by
    have top : ¬ 2 ^ Format.binary64.exponentBits ≤
        (e + Format.binary64.exponentBias + Format.binary64.mantissaBitsWithoutImplicit).toNat + 1 := by
      simp only [Format.exponentBias]
      omega
    rw [UnpackedFloat.pack]
    dsimp only
    rw [if_neg top]
    split
    · refine ⟨_, _, ?_, rfl⟩
      intro same
      have size := congrArg BitVec.toNat same
      rw [BitVec.toNat_ofNat] at size
      simp [Format.exponentBias] at size
      omega
    · exact ⟨_, _, by decide, rfl⟩
  obtain ⟨exponent, fraction, notTop, packed⟩ := packed
  have bits : (Float.Model.pack (.finite .positive m e positive)).unpack =
    UnpackedFloat.unpack Format.binary64 (UnpackedFloat.pack Format.binary64 _) := rfl
  rw [bits, packed]
  simp only [UnpackedFloat.unpack, unpackExponent_packComponents, unpackMantissa_packComponents,
    unpackSign_pack, notTop, if_false]
  split
  · split
    · exact ⟨.zero _, rfl⟩
    · exact ⟨.finite _, rfl⟩
  · exact ⟨.finite _, rfl⟩

end

end SeededChoice.Double
