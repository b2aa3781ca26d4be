import Mathlib.Algebra.Order.Field.Basic
import Mathlib.Tactic.Linarith
import Mathlib.Tactic.NormNum
import Mathlib.Tactic.Ring
import ScriptTable.Double.Rounding

/-!
Rounding of whole numbers beyond the signed range. From `2 ^ 63` to `2 ^ 64` the doubles are the
multiples of `2 ^ 11`, so the nearest one is the nearest multiple, and what lies below `2 ^ 63` is
farther away than `2 ^ 63` itself.
-/

namespace ScriptTable.Double

/-- The number that a finite float is. -/
def toRat (x : Double) : ℚ :=
  (if x.isNegative then -1 else 1) * (x.significand * (2 : ℚ) ^ x.exponent)

/-- No finite float is nearer to the number, and where another is as near, this one is even. -/
structure NearestTo (x : Double) (n : Int) : Prop where
  finite : x.isFinite = true
  nearest : ∀ y : Double, y.isFinite = true → |x.toRat - n| ≤ |y.toRat - n|
  even : ∀ y : Double, y.isFinite = true → y.toRat ≠ x.toRat → |y.toRat - n| = |x.toRat - n| →
    x.significand % 2 = 0

/-- How far the multiples of `den` are from a number: the two around it by the remainder and by what
the remainder lacks, all others by more than either. -/
theorem distance_cases (num : Nat) {den : Nat} (hden : 0 < den) (k : Int) :
    (k = (num / den : Nat) ∧ |k * den - num| = (num % den : Nat)) ∨
    (k = (num / den : Nat) + 1 ∧ |k * den - num| = den - (num % den : Nat)) ∨
    (k ≠ (num / den : Nat) ∧ k ≠ (num / den : Nat) + 1 ∧ den ≤ |k * den - num|) := by
  have hdiv : (num : Int) = (num / den : Nat) * den + (num % den : Nat) := by
    exact_mod_cast (Nat.div_add_mod' num den).symm
  have hmod : num % den < den := Nat.mod_lt num hden
  generalize num / den = q at *
  generalize num % den = r at *
  have hdist : k * den - num = (k - q) * den - r := by
    rw [hdiv]
    ring
  rw [hdist]
  rcases lt_trichotomy k q with hk | rfl | hk
  · right; right
    refine ⟨by omega, by omega, ?_⟩
    rw [abs_of_nonpos (by nlinarith)]
    nlinarith
  · left
    simp
  · rcases eq_or_lt_of_le (Int.add_one_le_iff.mpr hk) with rfl | hk
    · right; left
      have hlast : ((q : Int) + 1 - q) * den - r = den - r := by ring
      rw [hlast, abs_of_nonneg (by omega)]
      exact ⟨rfl, rfl⟩
    · right; right
      refine ⟨by omega, by omega, ?_⟩
      rw [abs_of_nonneg (by nlinarith)]
      nlinarith

/-- Multiples of `den` other than the rounded quotient are farther from `num`, or as far and the
rounded quotient is even. -/
theorem roundQuotient_cases (num : Nat) {den : Nat} (hden : 0 < den) (k : Int) :
    k = roundQuotient num den ∨
      |(roundQuotient num den : Int) * den - num| < |k * den - num| ∨
      (|(roundQuotient num den : Int) * den - num| = |k * den - num| ∧
        roundQuotient num den % 2 = 0) := by
  have hmod : num % den < den := Nat.mod_lt num hden
  have hrounded := distance_cases num hden (roundQuotient num den)
  have hk := distance_cases num hden k
  rw [roundQuotient] at hrounded ⊢
  grind

theorem roundQuotient_bounds {n : Nat} (low : 0x8000000000000000 ≤ n)
    (high : n < 0x10000000000000000) :
    0x10000000000000 ≤ roundQuotient n 2048 ∧ roundQuotient n 2048 ≤ 0x20000000000000 := by
  rw [roundQuotient]
  grind

theorem quotientLog2_unsigned {n : Nat} (low : 0x8000000000000000 ≤ n)
    (high : n < 0x10000000000000000) : quotientLog2 n 1 = 63 := by
  have hlog : n.log2 = 63 := (Nat.log2_eq_iff (by omega)).mpr ⟨low, high⟩
  have hone : Nat.log2 1 = 0 := by decide
  simp only [quotientLog2, hlog, hone]
  rw [if_pos]
  · rfl
  · change 1 * 0x8000000000000000 ≤ n * 1
    omega

theorem quotientMagnitude_unsigned {n : Nat} (low : 0x8000000000000000 ≤ n)
    (high : n < 0x10000000000000000) :
    quotientMagnitude n 1 = 1085 * Nat.pow 2 52 + roundQuotient n 2048 := by
  obtain ⟨-, hround⟩ := roundQuotient_bounds low high
  have hexponent : max (quotientLog2 n 1 - 52) (-1074) = 11 := by
    rw [quotientLog2_unsigned low high]
    rfl
  have hnum : n * Nat.pow 2 (-(11 : Int)).toNat = n := Nat.mul_one n
  have hden : 1 * Nat.pow 2 (11 : Int).toNat = 2048 := rfl
  rw [quotientMagnitude, if_neg (by omega), hexponent]
  simp only [hnum, hden]
  apply Nat.min_eq_left
  change 1085 * 0x10000000000000 + _ ≤ 2047 * 0x10000000000000
  omega

theorem ofInt_unsigned {n : Nat} (low : 0x8000000000000000 ≤ n)
    (high : n < 0x10000000000000000) :
    ofInt n = ofMagnitude false (1085 * Nat.pow 2 52 + roundQuotient n 2048) := by
  have hsign : decide ((n : Int) < 0) = false := by
    rw [decide_eq_false_iff_not]
    omega
  rw [ofInt, ofQuotient, hsign, Int.natAbs_natCast, quotientMagnitude_unsigned low high]

theorem magnitude_ofMagnitude {m : Nat} (h : m < Nat.pow 2 63) :
    (ofMagnitude false m).magnitude = m := by
  change m < 0x8000000000000000 at h
  change (UInt64.ofNat m).toNat % 0x8000000000000000 = m
  rw [UInt64.toNat_ofNat']
  omega

theorem isNegative_ofMagnitude {m : Nat} (h : m < Nat.pow 2 63) :
    (ofMagnitude false m).isNegative = false := by
  change m < 0x8000000000000000 at h
  rw [isNegative, decide_eq_false_iff_not]
  change ¬0x8000000000000000 ≤ (UInt64.ofNat m).toNat
  rw [UInt64.toNat_ofNat']
  omega

theorem toRat_of_not_isNegative {x : Double} (h : x.isNegative = false) :
    x.toRat = x.significand * 2 ^ x.exponent := by
  simp [toRat, h]

theorem toRat_nonpos {x : Double} (h : x.isNegative = true) : x.toRat ≤ 0 := by
  have hmagnitude : 0 ≤ (x.significand : ℚ) * 2 ^ x.exponent :=
    mul_nonneg (Nat.cast_nonneg _) (zpow_nonneg (by norm_num) _)
  rw [toRat, if_pos h]
  linarith

theorem significand_lt (x : Double) : x.significand < 0x20000000000000 := by
  have hfraction : x.fractionField < 0x10000000000000 := Nat.mod_lt _ (by decide)
  have hlead : Nat.pow 2 52 = 0x10000000000000 := rfl
  rw [significand, hlead]
  split <;> omega

/-- From `2 ^ 63` on the finite floats are multiples of `2 ^ 11`. -/
theorem exists_multiple {x : Double} (h : 0x8000000000000000 ≤ x.toRat) :
    ∃ k : Int, x.toRat = k * 2048 := by
  have hpositive : x.isNegative = false := by
    by_contra hneg
    have := toRat_nonpos (Bool.not_eq_false _ ▸ hneg)
    linarith
  rw [toRat_of_not_isNegative hpositive] at h ⊢
  have hexponent : 11 ≤ x.exponent := by
    by_contra hlt
    have hpow : (2 : ℚ) ^ x.exponent ≤ 1024 := by
      calc (2 : ℚ) ^ x.exponent ≤ 2 ^ (10 : Int) := zpow_le_zpow_right₀ (by norm_num) (by omega)
        _ = 1024 := by norm_num
    have hsignificand : (x.significand : ℚ) < 0x20000000000000 := by
      exact_mod_cast x.significand_lt
    nlinarith [zpow_pos (show (0 : ℚ) < 2 by norm_num) x.exponent]
  obtain ⟨j, hj⟩ := Int.eq_ofNat_of_zero_le (sub_nonneg.mpr hexponent)
  have hsplit : x.exponent = j + 11 := by omega
  refine ⟨x.significand * 2 ^ j, ?_⟩
  rw [hsplit, zpow_add₀ (by norm_num)]
  push_cast
  norm_num
  ring

/-- The patterns from `2 ^ 63` to `2 ^ 64`. The one after the last with this exponent carries into
the exponent field and is the next power of two. -/
theorem ofMagnitude_spec {m : Nat} (low : 0x10000000000000 ≤ m) (high : m ≤ 0x20000000000000) :
    (ofMagnitude false (1085 * Nat.pow 2 52 + m)).isFinite = true ∧
      (ofMagnitude false (1085 * Nat.pow 2 52 + m)).toRat = m * 2048 ∧
      (m % 2 = 0 → (ofMagnitude false (1085 * Nat.pow 2 52 + m)).significand % 2 = 0) := by
  have hlead : Nat.pow 2 52 = 0x10000000000000 := rfl
  have hbound : 1085 * Nat.pow 2 52 + m < Nat.pow 2 63 := by
    change 1085 * 0x10000000000000 + _ < 0x8000000000000000
    omega
  have hmagnitude := magnitude_ofMagnitude hbound
  have hpositive := isNegative_ofMagnitude hbound
  generalize ofMagnitude false (1085 * Nat.pow 2 52 + m) = x at *
  have hfield : x.exponentField = x.magnitude / 0x10000000000000 := rfl
  have hfraction : x.fractionField = x.magnitude % 0x10000000000000 := rfl
  rw [isFinite, decide_eq_true_eq, infinityMagnitude, toRat_of_not_isNegative hpositive, hlead]
  rw [hlead] at hmagnitude
  rcases eq_or_lt_of_le high with rfl | hlt
  · have he : x.exponentField = 1087 := by omega
    have hs : x.significand = 0x10000000000000 := by
      rw [significand, if_neg (by omega), hlead]
      omega
    have hx : x.exponent = 12 := by
      rw [exponent, he]
      rfl
    rw [hs, hx]
    norm_num [hmagnitude]
  · have he : x.exponentField = 1086 := by omega
    have hs : x.significand = m := by
      rw [significand, if_neg (by omega), hlead]
      omega
    have hx : x.exponent = 11 := by
      rw [exponent, he]
      rfl
    rw [hs, hx]
    exact ⟨by omega, by norm_num, id⟩

/-- A whole number that 64 bits hold without a sign but not with one becomes the nearest float. -/
theorem nearestTo_ofInt {n : Nat} (low : 0x8000000000000000 ≤ n)
    (high : n < 0x10000000000000000) : (ofInt n).NearestTo n := by
  obtain ⟨hlow, hhigh⟩ := roundQuotient_bounds low high
  obtain ⟨hfinite, hvalue, heven⟩ := ofMagnitude_spec hlow hhigh
  rw [← ofInt_unsigned low high] at hfinite hvalue heven
  have hgrid : ∀ k : Int, k = roundQuotient n 2048 ∨
      |(ofInt n).toRat - n| < |(k * 2048 : ℚ) - n| ∨
      (|(ofInt n).toRat - n| = |(k * 2048 : ℚ) - n| ∧ roundQuotient n 2048 % 2 = 0) := by
    intro k
    rw [hvalue]
    exact_mod_cast roundQuotient_cases n (show 0 < 2048 by decide) k
  have hbelow : ∀ y : Double, y.toRat < 0x8000000000000000 →
      |(ofInt n).toRat - n| < |y.toRat - n| := by
    intro y hy
    have hn : (0x8000000000000000 : ℚ) ≤ n := by exact_mod_cast low
    have hpower : |((0x10000000000000 : Int) * 2048 : ℚ) - n| < |y.toRat - n| := by
      rw [abs_of_nonpos (by norm_num; linarith), abs_of_nonpos (by linarith)]
      norm_num
      linarith
    rcases hgrid 0x10000000000000 with h | h | h
    · rw [hvalue, ← Int.cast_natCast (roundQuotient n 2048), ← h]
      exact hpower
    · exact h.trans hpower
    · exact h.1.trans_lt hpower
  constructor
  · exact hfinite
  · intro y _
    rcases lt_or_ge y.toRat 0x8000000000000000 with hy | hy
    · exact (hbelow y hy).le
    · obtain ⟨k, hk⟩ := exists_multiple hy
      rw [hk]
      rcases hgrid k with rfl | h | h
      · rw [hvalue]
        simp
      · exact h.le
      · exact h.1.le
  · intro y _ hne heq
    rcases lt_or_ge y.toRat 0x8000000000000000 with hy | hy
    · exact absurd heq (hbelow y hy).ne'
    · obtain ⟨k, hk⟩ := exists_multiple hy
      rw [hk] at heq hne
      rcases hgrid k with rfl | h | h
      · exact absurd hvalue.symm (by simpa using hne)
      · exact absurd heq h.ne'
      · exact heven h.2

end ScriptTable.Double
