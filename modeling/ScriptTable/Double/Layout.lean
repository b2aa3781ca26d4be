import ScriptTable.Double.Shortest

/-!
The written forms of a float. Digits are always the shortest ones; a layout says where the form
with an exponent begins, how its sign is written, and which way ties between digits go.
-/

namespace ScriptTable.Double

/-- A float whose first digit stands for `10 ^ p` is written in full, with a fraction, when
`plainFrom ≤ p ≤ plainTo`, and otherwise with an exponent. -/
structure Layout where
  plainFrom : Int
  plainTo : Int
  /-- The sign of an exponent that is not negative. -/
  plus : String
  tie : Tie

/-- Digits in full: at least one on each side of the point. -/
def Decimal.plain (d : Decimal) : String :=
  let digits := Nat.toDigits 10 d.coefficient
  if 0 ≤ d.scale then
    String.ofList (digits ++ List.replicate d.scale.toNat '0') ++ ".0"
  else
    let places := (-d.scale).toNat
    let padded := List.replicate (places + 1 - digits.length) '0' ++ digits
    let cut := padded.length - places
    String.ofList (padded.take cut ++ '.' :: padded.drop cut)

/-- The exponent of the first digit. -/
def Decimal.top (d : Decimal) : Int :=
  (Nat.toDigits 10 d.coefficient).length - 1 + d.scale

/-- One digit before the point, and no point when there is no other digit. -/
def Decimal.scientific (d : Decimal) (plus : String) : String :=
  let mantissa := match Nat.toDigits 10 d.coefficient with
    | [] => []
    | [c] => [c]
    | c :: rest => c :: '.' :: rest
  String.ofList mantissa ++ "e" ++ (if 0 ≤ d.top then plus else "") ++ toString d.top

def Layout.magnitude (l : Layout) (x : Double) : String :=
  if x.isInfinite then "inf"
  else if x.isZero then "0.0"
  else
    let d := x.shortest l.tie
    if l.plainFrom ≤ d.top ∧ d.top ≤ l.plainTo then d.plain else d.scientific l.plus

def Layout.write (l : Layout) (x : Double) : String :=
  if x.isNaN then "NaN"
  else (if x.isNegative then "-" else "") ++ l.magnitude x

/-- Values and keys: `0.0001` and `1e-5`, `1e16`. -/
def display : Layout := ⟨-4, 15, "", .up⟩

/-- JSON texts: `0.00001` and `1e-6`, `1e+16`. -/
def jsonLayout : Layout := ⟨-5, 15, "+", .toEven⟩

end ScriptTable.Double
