import ScriptTable.Double

/-!
Rounding of exact numbers to doubles. A quotient of naturals is rounded once, to the nearest
double, a tie to the one with an even significand; integers and single-precision patterns are all
quotients.
-/

namespace ScriptTable.Double

/-- The quotient rounded to the nearest natural, a half to the even one. -/
def roundQuotient (num den : Nat) : Nat :=
  let q := num / den
  let r := num % den
  if 2 * r < den then q
  else if den < 2 * r then q + 1
  else q + q % 2

/-- The exponent `k` with `2 ^ k ≤ num / den < 2 ^ (k + 1)`, for a positive quotient. -/
def quotientLog2 (num den : Nat) : Int :=
  let k : Int := (num.log2 : Int) - den.log2
  if den * Nat.pow 2 k.toNat ≤ num * Nat.pow 2 (-k).toNat then k else k - 1

/-- The magnitude pattern nearest to `num / den`. A significand that rounds up to the next power
of two carries into the exponent field, and a carry past the largest finite pattern is infinity. -/
def quotientMagnitude (num den : Nat) : Nat :=
  if num = 0 then 0
  else
    let e := max (quotientLog2 num den - 52) (-1074)
    let m := roundQuotient (num * Nat.pow 2 (-e).toNat) (den * Nat.pow 2 e.toNat)
    min ((e + 1074).toNat * Nat.pow 2 52 + m) infinityMagnitude

def ofQuotient (negative : Bool) (num den : Nat) : Double :=
  ofMagnitude negative (quotientMagnitude num den)

def ofInt (n : Int) : Double := ofQuotient (n < 0) n.natAbs 1

/-- The double nearest to `num / den * 2 ^ e`. -/
def ofScaled (negative : Bool) (num den : Nat) (e : Int) : Double :=
  ofQuotient negative (num * Nat.pow 2 e.toNat) (den * Nat.pow 2 (-e).toNat)

/-- The double of the same value as a single-precision pattern; every NaN becomes one. -/
def ofSingle (w : UInt32) : Double :=
  let negative : Bool := Nat.pow 2 31 ≤ w.toNat
  let field := w.toNat % Nat.pow 2 31 / Nat.pow 2 23
  let fraction := w.toNat % Nat.pow 2 23
  if field = 255 then
    if fraction = 0 then ofMagnitude negative infinityMagnitude else nan
  else
    let m := if field = 0 then fraction else Nat.pow 2 23 + fraction
    let e : Int := (max 1 field : Nat) - 150
    ofScaled negative m 1 e

end ScriptTable.Double

namespace ScriptTable

/-- A single-precision float: one of the 2^32 patterns. -/
structure Single where
  bits : UInt32
  deriving DecidableEq, Repr

def Single.toDouble (x : Single) : Double := .ofSingle x.bits

end ScriptTable
