import ScriptTable.Text.Blank

/-!
The settings of a conversion.
-/

namespace ScriptTable

structure Config where
  /-- The deepest nesting of composites that is converted. -/
  maxDepth : Nat := 128
  deriving DecidableEq, Repr

namespace Config

/-- A depth is written in decimal digits, with at most one plus before them, and fits 64 bits. -/
def depth? (s : List Char) : Option Nat :=
  let digits := match s with
    | '+' :: rest => rest
    | _ => s
  if digits ≠ [] ∧ digits.all Char.isDigit then
    let n := digits.foldl (fun n c => 10 * n + (c.toNat - 48)) 0
    if n < 0x10000000000000000 then some n else none
  else none

/-- The default settings, changed by the value of the environment variable when it is a depth with
or without blanks around it. -/
def ofEnvironment (var : Option String) : Config :=
  match var.bind fun s => depth? (Text.trim s.toList) with
  | some n => ⟨n⟩
  | none => {}

end Config

end ScriptTable
