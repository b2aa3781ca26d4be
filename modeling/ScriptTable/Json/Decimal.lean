import ScriptTable.Double.Rounding
import ScriptTable.Double.Shortest

/-!
Decimals in a document. The digits are taken as far as 64 bits hold the number they make, which is
then multiplied or divided by a power of ten. Both that number and the power are rounded, and so is
the result, so it is not always the float nearest to what is written.
-/

namespace ScriptTable

namespace Json

/-- Appends digits to a number as long as it stays below 2^64, and counts those that are left. -/
def appendDigits : Nat → List Char → Nat × Nat
  | n, [] => (n, 0)
  | n, c :: rest =>
    let longer := 10 * n + (c.toNat - 48)
    if longer < 0x10000000000000000 then appendDigits longer rest else (n, rest.length + 1)

/-- Each digit before the point that is left makes the rest count ten times as much. Digits after
the point that are left count for nothing. -/
def decimalOfDigits (whole fraction : List Char) : Double.Decimal :=
  let (n, surplus) := appendDigits 0 whole
  let (coefficient, dropped) := appendDigits n fraction
  ⟨coefficient, surplus - (fraction.length - dropped : Nat)⟩

end Json

namespace Double

/-- The product of two finite floats, their signs left out. -/
def mulAbs (x y : Double) : Double :=
  ofScaled false (x.significand * y.significand) 1 (x.exponent + y.exponent)

/-- The quotient of two finite floats, their signs left out. -/
def divAbs (x y : Double) : Double :=
  ofScaled false x.significand y.significand (x.exponent - y.exponent)

def powerOfTen (n : Nat) : Double := ofQuotient false (Nat.pow 10 n) 1

/-- `x * 10 ^ e`, infinite when that is out of range. The powers of ten go up to 308, so a smaller
number takes several divisions, until nothing is left of it. -/
def scaleByTen (x : Double) (e : Int) : Double :=
  if 308 < e then if x.isZero then x else ofMagnitude false infinityMagnitude
  else if 0 ≤ e then x.mulAbs (powerOfTen e.toNat)
  else if -308 ≤ e then x.divAbs (powerOfTen (-e).toNat)
  else if x.isZero then x
  else scaleByTen (x.divAbs (powerOfTen 308)) (e + 308)
termination_by (-e).toNat

def Decimal.toDouble (d : Decimal) (negative : Bool) : Double :=
  ofMagnitude negative (scaleByTen (ofQuotient false d.coefficient 1) d.scale).magnitude

end Double

end ScriptTable
