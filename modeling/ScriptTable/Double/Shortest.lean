import ScriptTable.Double

/-!
The fewest decimal digits that read back as the same double. The reals that round to a double
form an interval; the digits are a point of the coarsest decimal grid with a point inside, the
one nearest to the double. On a grid only the two neighbours of the double need a look: if any
grid point lies in the interval, one of them does.
-/

namespace ScriptTable.Double

/-- What to do when both neighbours on the grid are equally near. -/
inductive Tie where
  | up
  | toEven
  deriving DecidableEq, Repr

/-- The positive number `coefficient * 10 ^ scale`. -/
structure Decimal where
  coefficient : Nat
  scale : Int
  deriving DecidableEq, Repr

/-- A finite positive magnitude and the interval that rounds to it, over one denominator. The
ends belong to the interval when `closed`. -/
structure Interval where
  low : Nat
  value : Nat
  high : Nat
  den : Nat
  closed : Bool

/-- The ends lie half a unit away; below a power of two the next double is half as far, so there
the lower end is a quarter of a unit away. -/
def interval (x : Double) : Interval :=
  let m := x.significand
  let e := x.exponent - 2
  let up := Nat.pow 2 e.toNat
  let below := if x.fractionField = 0 ∧ 1 < x.exponentField then 1 else 2
  ⟨(4 * m - below) * up, 4 * m * up, (4 * m + 2) * up, Nat.pow 2 (-e).toNat, m % 2 == 0⟩

def Interval.contains (i : Interval) (d : Decimal) : Bool :=
  let num := d.coefficient * Nat.pow 10 d.scale.toNat * i.den
  let den := Nat.pow 10 (-d.scale).toNat
  if i.closed then i.low * den ≤ num && num ≤ i.high * den
  else i.low * den < num && num < i.high * den

/-- The decimal exponent of the first digit: `10 ^ p ≤ num / den < 10 ^ (p + 1)`. -/
def quotientLog10 (num den : Nat) : Int :=
  if den ≤ num then (Nat.toDigits 10 (num / den)).length - 1
  else
    let d := (Nat.toDigits 10 (den / num)).length
    if den ≤ num * Nat.pow 10 (d - 1) then 1 - d else -d

/-- The neighbour of the value on the grid of `10 ^ scale` that lies in the interval, if any. -/
def Interval.onGrid (i : Interval) (tie : Tie) (scale : Int) : Option Decimal :=
  let num := i.value * Nat.pow 10 (-scale).toNat
  let den := i.den * Nat.pow 10 scale.toNat
  let below : Decimal := ⟨num / den, scale⟩
  let above : Decimal := ⟨num / den + 1, scale⟩
  let rest := 2 * (num % den)
  let preferAbove :=
    if rest = den then tie == .up || (num / den) % 2 == 1 else den < rest
  match i.contains below, i.contains above with
  | true, true => some (if preferAbove then above else below)
  | true, false => some below
  | false, true => some above
  | false, false => none

/-- Drops the zeros at the end of the coefficient. -/
def Decimal.trim (d : Decimal) : Decimal :=
  if h : d.coefficient ≠ 0 ∧ d.coefficient % 10 = 0 then
    Decimal.trim ⟨d.coefficient / 10, d.scale + 1⟩
  else d
termination_by d.coefficient
decreasing_by omega

/-- The shortest decimal of a finite float other than zero. Seventeen digits always suffice, so
the value itself, cut off there, is only a formality. -/
def shortest (tie : Tie) (x : Double) : Decimal :=
  let i := x.interval
  let top := quotientLog10 i.value i.den
  let grids := (List.range 17).map fun k : Nat => top - k
  ((grids.findSome? (i.onGrid tie)).getD ⟨x.significand, x.exponent⟩).trim

end ScriptTable.Double
