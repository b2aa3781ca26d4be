import ScriptTable.Proofs.Double.Nearest

/-!
Comparison of bit patterns is comparison of numbers. A magnitude is determined by the number that it
stands for, so two patterns stand for one number only if they are the same or both zeros, and finite
floats are numerically equal exactly when they are one number.
-/

namespace ScriptTable.Double

theorem eq_of_magnitude {x y : Double} (sign : x.isNegative = y.isNegative)
    (magnitude : x.magnitude = y.magnitude) : x = y := by
  obtain ⟨a⟩ := x
  obtain ⟨b⟩ := y
  have hsign : 0x8000000000000000 ≤ a.toNat ↔ 0x8000000000000000 ≤ b.toNat :=
    decide_eq_decide.mp sign
  change a.toNat % 0x8000000000000000 = b.toNat % 0x8000000000000000 at magnitude
  have ha := a.toNat_lt
  have hb := b.toNat_lt
  congr 1
  apply UInt64.toNat.inj
  omega

/-- Significand and exponent as they are read off a magnitude, without a leading bit and with one. -/
theorem parts (x : Double) :
    (x.magnitude < 0x10000000000000 ∧ x.significand = x.magnitude ∧ x.exponent = -1074) ∨
    ∃ e f, 0 < e ∧ f < 0x10000000000000 ∧ x.magnitude = e * 0x10000000000000 + f ∧
      x.significand = 0x10000000000000 + f ∧ x.exponent = (e : Int) - 1075 := by
  have hfield : x.exponentField = x.magnitude / 0x10000000000000 := rfl
  have hfraction : x.fractionField = x.magnitude % 0x10000000000000 := rfl
  have hlead : Nat.pow 2 52 = 0x10000000000000 := rfl
  by_cases he : x.exponentField = 0
  · left
    rw [significand, if_pos he, exponent, he]
    exact ⟨by omega, by omega, rfl⟩
  · right
    refine ⟨x.exponentField, x.fractionField, by omega, by omega, by omega, ?_, ?_⟩
    · rw [significand, if_neg he, hlead]
    · rw [exponent, Nat.max_eq_right (by omega)]

theorem le_significand {x : Double} (h : -1074 < x.exponent) :
    0x10000000000000 ≤ x.significand := by
  obtain ⟨-, -, he⟩ | ⟨e, f, -, -, -, hs, -⟩ := x.parts <;> omega

theorem le_exponent (x : Double) : -1074 ≤ x.exponent := by
  obtain ⟨-, -, he⟩ | ⟨e, f, hpos, -, -, -, he⟩ := x.parts <;> omega

/-- A smaller exponent would ask for a significand with more bits than there are. -/
theorem not_exponent_lt {x y : Double}
    (value : (x.significand * 2 ^ x.exponent : ℚ) = y.significand * 2 ^ y.exponent) :
    ¬x.exponent < y.exponent := by
  intro hlt
  have hleading := le_significand (x.le_exponent.trans_lt hlt)
  obtain ⟨n, hn⟩ := Int.eq_ofNat_of_zero_le (sub_nonneg.mpr hlt.le)
  have hsplit : y.exponent = n + x.exponent := by omega
  have hsignificand : x.significand = y.significand * 2 ^ n := by
    rw [hsplit, zpow_add₀ two_ne_zero, ← mul_assoc, zpow_natCast] at value
    have hpow : (2 : ℚ) ^ x.exponent ≠ 0 := zpow_ne_zero _ two_ne_zero
    exact_mod_cast mul_right_cancel₀ hpow value
  have htwo : 2 ≤ 2 ^ n := Nat.le_self_pow (by omega) 2
  have hlarge := Nat.mul_le_mul hleading htwo
  have hbound := x.significand_lt
  omega

theorem magnitude_eq_of_value {x y : Double}
    (value : (x.significand * 2 ^ x.exponent : ℚ) = y.significand * 2 ^ y.exponent) :
    x.magnitude = y.magnitude := by
  have hexponent : x.exponent = y.exponent :=
    le_antisymm (not_lt.mp (not_exponent_lt value.symm)) (not_lt.mp (not_exponent_lt value))
  have hsignificand : x.significand = y.significand := by
    rw [hexponent] at value
    exact_mod_cast mul_right_cancel₀ (zpow_ne_zero _ two_ne_zero) value
  obtain ⟨hx, hxs, hxe⟩ | ⟨e, f, he, hf, hx, hxs, hxe⟩ := x.parts <;>
    obtain ⟨hy, hys, hye⟩ | ⟨e', f', he', hf', hy, hys, hye⟩ := y.parts <;> omega

theorem abs_toRat (x : Double) : |x.toRat| = x.significand * 2 ^ x.exponent := by
  have hmagnitude : 0 ≤ (x.significand : ℚ) * 2 ^ x.exponent :=
    mul_nonneg (Nat.cast_nonneg _) (zpow_nonneg (by norm_num) _)
  rw [toRat]
  split
  · rw [neg_one_mul, abs_neg, abs_of_nonneg hmagnitude]
  · rw [one_mul, abs_of_nonneg hmagnitude]

theorem toRat_eq_zero_iff (x : Double) : x.toRat = 0 ↔ x.isZero = true := by
  have hpow : (2 : ℚ) ^ x.exponent ≠ 0 := zpow_ne_zero _ two_ne_zero
  rw [← abs_eq_zero, abs_toRat, mul_eq_zero_iff_right hpow, Nat.cast_eq_zero, isZero, beq_iff_eq]
  obtain ⟨-, hs, -⟩ | ⟨e, f, he, -, hx, hs, -⟩ := x.parts <;> omega

theorem isNegative_eq_of_toRat_eq {x y : Double} (h : x.toRat = y.toRat)
    (nonzero : x.toRat ≠ 0) : x.isNegative = y.isNegative := by
  have hsign : ∀ z : Double, z.toRat ≠ 0 → (z.isNegative = true ↔ z.toRat < 0) := by
    intro z hz
    constructor
    · intro hneg
      exact lt_of_le_of_ne (toRat_nonpos hneg) hz
    · intro hlt
      by_contra hneg
      rw [toRat_of_not_isNegative (Bool.not_eq_true _ ▸ hneg), ← abs_toRat] at hlt
      exact absurd (abs_nonneg _) (not_le.mpr hlt)
  rw [Bool.eq_iff_iff, hsign x nonzero, hsign y (h ▸ nonzero), h]

/-- One number has one pattern, except for zero. -/
theorem toRat_eq_iff (x y : Double) :
    x.toRat = y.toRat ↔ x = y ∨ (x.isZero = true ∧ y.isZero = true) := by
  constructor
  · intro h
    by_cases hzero : x.toRat = 0
    · right
      exact ⟨x.toRat_eq_zero_iff.mp hzero, y.toRat_eq_zero_iff.mp (h ▸ hzero)⟩
    · left
      apply eq_of_magnitude (isNegative_eq_of_toRat_eq h hzero)
      apply magnitude_eq_of_value
      rw [← abs_toRat, ← abs_toRat, h]
  · rintro (rfl | ⟨hx, hy⟩)
    · rfl
    · rw [x.toRat_eq_zero_iff.mpr hx, y.toRat_eq_zero_iff.mpr hy]

end ScriptTable.Double
