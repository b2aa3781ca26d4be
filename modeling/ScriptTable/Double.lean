/-!
Double-precision floats as bit patterns. Every operation the library needs (telling zeros and
NaN apart from the rest, comparison, the form a float takes as a key) is arithmetic on the 64
bits, so it can be reasoned about; no machine float is involved.
-/

namespace ScriptTable

/-- One of the 2^64 patterns: a sign bit, eleven exponent bits, fifty-two fraction bits. -/
structure Double where
  bits : UInt64
  deriving DecidableEq, Hashable, Repr

namespace Double

/-- The pattern without its sign bit; it orders the magnitudes. -/
def magnitude (x : Double) : Nat := x.bits.toNat % Nat.pow 2 63

def isNegative (x : Double) : Bool := Nat.pow 2 63 ≤ x.bits.toNat

/-- The magnitude pattern of infinity. Larger patterns are NaN, smaller ones finite. -/
def infinityMagnitude : Nat := 2047 * Nat.pow 2 52

def isNaN (x : Double) : Bool := infinityMagnitude < x.magnitude
def isInfinite (x : Double) : Bool := x.magnitude == infinityMagnitude
def isFinite (x : Double) : Bool := x.magnitude < infinityMagnitude
def isZero (x : Double) : Bool := x.magnitude == 0

def zero : Double := ⟨0⟩
def nan : Double := ⟨0x7ff8000000000000⟩

/-- The float with this sign and this magnitude pattern. -/
def ofMagnitude (negative : Bool) (m : Nat) : Double :=
  ⟨UInt64.ofNat (if negative then Nat.pow 2 63 + m else m)⟩

def exponentField (x : Double) : Nat := x.magnitude / Nat.pow 2 52
def fractionField (x : Double) : Nat := x.magnitude % Nat.pow 2 52

/-- A finite float has the absolute value `significand * 2 ^ exponent`. -/
def significand (x : Double) : Nat :=
  if x.exponentField = 0 then x.fractionField else Nat.pow 2 52 + x.fractionField

def exponent (x : Double) : Int := (max 1 x.exponentField : Nat) - 1075

/-- Numeric equality: NaN differs from everything, itself included, and the zeros agree. -/
def numEq (x y : Double) : Bool :=
  !x.isNaN && !y.isNaN && (x == y || (x.isZero && y.isZero))

/-- Folds negative zero into zero and all NaN into one. -/
def canonical (x : Double) : Double :=
  if x.isZero then zero else if x.isNaN then nan else x

@[simp] theorem isZero_zero : zero.isZero = true := by decide
@[simp] theorem isNaN_nan : nan.isNaN = true := by decide
@[simp] theorem isZero_nan : nan.isZero = false := by decide

theorem canonical_canonical (x : Double) : x.canonical.canonical = x.canonical := by
  by_cases hz : x.isZero
  · simp [canonical, hz]
  · by_cases hn : x.isNaN <;> simp [canonical, hz, hn]

end Double

end ScriptTable
