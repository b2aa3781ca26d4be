import ScriptTable.Proofs.Double.Comparison
import ScriptTable.Proofs.Table.ValueProtocol
import ScriptTable.Proofs.Value.Equivalence

/-!
Which values are one key. The key of a value is read off its kind and, for a float, off the canonical
bits; the keys of two values are the same exactly when the values are equal or both NaN. Among finite
floats that is to be the same number.
-/

namespace ScriptTable

namespace Double

theorem isNaN_of_isFinite {x : Double} (h : x.isFinite = true) : x.isNaN = false := by
  rw [isFinite, decide_eq_true_eq] at h
  rw [isNaN, decide_eq_false_iff_not]
  omega

/-- Comparison of bits, as comparison of numbers. -/
theorem numEq_iff_toRat_eq {x y : Double} (hx : x.isFinite = true) (hy : y.isFinite = true) :
    x.numEq y = true ↔ x.toRat = y.toRat := by
  rw [numEq_iff, toRat_eq_iff]
  simp [isNaN_of_isFinite hx, isNaN_of_isFinite hy]

/-- A float is the key of what is equal to it, and NaN that of every NaN. -/
theorem sameKey_iff_numEq (x y : Double) :
    x.sameKey y = true ↔ x.numEq y = true ∨ (x.isNaN = true ∧ y.isNaN = true) := by
  rw [numEq_iff]
  simp only [sameKey, Bool.or_eq_true, Bool.and_eq_true, beq_iff_eq]
  constructor
  · rintro ((⟨hx, hy⟩ | hnan) | rfl)
    · exact .inl ⟨isNaN_of_isZero hx, isNaN_of_isZero hy, .inr ⟨hx, hy⟩⟩
    · exact .inr hnan
    · cases h : x.isNaN with
      | true => exact .inr ⟨rfl, rfl⟩
      | false => exact .inl ⟨rfl, rfl, .inl rfl⟩
  · rintro (⟨-, -, rfl | hzero⟩ | hnan)
    · exact .inr rfl
    · exact .inl (.inl hzero)
    · exact .inl (.inr hnan)

theorem sameKey_of_isInfinite {x : Double} (h : x.isInfinite = true) (y : Double) :
    x.sameKey y = true ↔ x = y := by
  rw [isInfinite, beq_iff_eq] at h
  have hzero : x.isZero = false := by
    rw [isZero, h]
    rfl
  have hnan : x.isNaN = false := by simp [isNaN, h]
  simp [sameKey, hzero, hnan]

end Double

theorem FloatKey.beq_eq_bits (j k : FloatKey) : (j == k) = (j.value.bits == k.value.bits) := by
  rw [Bool.eq_iff_iff, beq_iff_eq, beq_iff_eq, FloatKey.ext_iff]
  cases j.value
  cases k.value
  simp

/-- The keys of two values are the same when the values are equal, and when both are NaN. -/
theorem Value.toKey?_eq_iff {a b : Value} (ha : a ≠ .none) (htable : a.isTable = false) :
    a.toKey? = b.toKey? ↔ a.equiv b = true ∨
      ∃ x y, a = .float x ∧ b = .float y ∧ x.isNaN = true ∧ y.isNaN = true := by
  cases a with
  | none => exact absurd rfl ha
  | table i t => cases htable
  | float x =>
    cases b with
    | float y => simp [toKey?_float_eq_iff, equiv, Double.sameKey_iff_numEq]
    | _ => simp [toKey?, equiv, Key.ofDouble]
  | _ => cases b <;> simp [toKey?, equiv, Key.ofDouble]

/-- Classification as a key tells apart exactly the values that are not equal, but for NaN, which is
one key. A float is never the key of a whole number; two finite floats are one key when they are one
number, and an infinite one is the key of itself alone. The canonical form is its own canonical form,
keys are compared by its bits, and equal keys hash the same bits. -/
theorem key_classes :
    (∀ a b : Value, a ≠ .none → a.isTable = false → b ≠ .none → b.isTable = false →
      ∃ j k, a.toKey? = some j ∧ b.toKey? = some k ∧
        (j = k ↔ a.equiv b = true ∨
          ∃ x y, a = .float x ∧ b = .float y ∧ x.isNaN = true ∧ y.isNaN = true)) ∧
    (∀ (x : Double) (n : Int), (Value.float x).toKey? ≠ (Value.integer n).toKey?) ∧
    (∀ x y : Double, x.isFinite = true → y.isFinite = true →
      ((Value.float x).toKey? = (Value.float y).toKey? ↔ x.toRat = y.toRat)) ∧
    (∀ x y : Double, x.isInfinite = true →
      ((Value.float x).toKey? = (Value.float y).toKey? ↔ x = y)) ∧
    (∀ x : Double,
      FloatKey.ofDouble (FloatKey.ofDouble x).value = FloatKey.ofDouble x) ∧
    (∀ j k : FloatKey, (j == k) = (j.value.bits == k.value.bits)) ∧
    ∀ j k : FloatKey, (j == k) = true → j.value.bits = k.value.bits ∧ hash j = hash k := by
  refine ⟨?_, ?_, ?_, ?_, fun x => FloatKey.ofDouble_value _, FloatKey.beq_eq_bits, ?_⟩
  · intro a b ha hatable hb hbtable
    obtain ⟨j, hj⟩ := Option.isSome_iff_exists.mp (a.toKey?_isSome_iff.mpr ⟨ha, hatable⟩)
    obtain ⟨k, hk⟩ := Option.isSome_iff_exists.mp (b.toKey?_isSome_iff.mpr ⟨hb, hbtable⟩)
    refine ⟨j, k, hj, hk, ?_⟩
    rw [← Value.toKey?_eq_iff ha hatable, hj, hk, Option.some.injEq]
  · intro x n
    simp [Value.toKey?, Key.ofDouble]
  · intro x y hx hy
    rw [Value.toKey?_float_eq_iff, Double.sameKey_iff_numEq, Double.numEq_iff_toRat_eq hx hy]
    simp [Double.isNaN_of_isFinite hx]
  · intro x y hx
    rw [Value.toKey?_float_eq_iff, Double.sameKey_of_isInfinite hx]
  · intro j k h
    obtain rfl := beq_iff_eq.mp h
    exact ⟨rfl, rfl⟩

/-- Two NaN of different signs are one key and not equal; the zeros are both; a float is not the whole
number that it stands for. -/
theorem key_classes_of_floats :
    let nan : Double := ⟨0x7ff0000000000001⟩
    let other : Double := ⟨0xffffffffffffffff⟩
    let minusZero : Double := ⟨0x8000000000000000⟩
    let infinity : Double := ⟨0x7ff0000000000000⟩
    let one : Double := ⟨0x3ff0000000000000⟩
    (∃ j k, (Value.float nan).toKey? = some j ∧ (Value.float other).toKey? = some k ∧ j = k) ∧
      (Value.float nan).equiv (.float other) = false ∧
      (Value.float minusZero).toKey? = (Value.float .zero).toKey? ∧
      (Value.float infinity).toKey? ≠ (Value.float ⟨0xfff0000000000000⟩).toKey? ∧
      (Value.float one).toKey? ≠ (Value.integer 1).toKey? := by
  intro nan other minusZero infinity one
  obtain ⟨hkeys, hintegers, hfinite, hinfinite, -⟩ := key_classes
  obtain ⟨j, k, hj, hk, hiff⟩ :=
    hkeys (.float nan) (.float other) (by simp) rfl (by simp) rfl
  refine ⟨⟨j, k, hj, hk, hiff.mpr (.inr ⟨nan, other, rfl, rfl, by decide, by decide⟩)⟩, ?_, ?_, ?_,
    hintegers one 1⟩
  · rw [Value.equiv]
    decide
  · rw [hfinite minusZero .zero (by decide) (by decide),
      minusZero.toRat_eq_zero_iff.mpr (by decide), Double.zero.toRat_eq_zero_iff.mpr (by decide)]
  · rw [ne_eq, hinfinite infinity _ (by decide)]
    decide

end ScriptTable
