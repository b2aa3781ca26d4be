import ScriptTable.Double.Rounding
import ScriptTable.Partition.Ordered

/-!
JSON documents. An object is a list of members in document order. A number is a whole number or a
finite float: the two classes are kept apart, and never compare equal.
-/

namespace ScriptTable

inductive Json where
  | null
  | bool (b : Bool)
  | int (n : Int)
  | float (x : Double)
  | text (s : String)
  | list (items : List Json)
  | object (fields : List (String × Json))

namespace Json

instance : Inhabited Json := ⟨.null⟩

mutual

/-- Equality of documents: the order of an object's members does not count, and floats compare
numerically. -/
def equiv : Json → Json → Bool
  | .null, .null => true
  | .bool a, .bool b => a == b
  | .int m, .int n => m == n
  | .float x, .float y => x.numEq y
  | .text s, .text t => s == t
  | .list xs, .list ys => equivAll xs ys
  | .object f, .object g => f.length == g.length && fieldsIn f g
  | _, _ => false

def equivAll : List Json → List Json → Bool
  | [], [] => true
  | x :: xs, y :: ys => x.equiv y && equivAll xs ys
  | _, _ => false

/-- Every member on the left has its equal under the same name on the right. -/
def fieldsIn : List (String × Json) → List (String × Json) → Bool
  | [], _ => true
  | (name, x) :: rest, g =>
    (match g.lookup name with
      | some y => x.equiv y
      | none => false) && fieldsIn rest g

end

/-- The object of a list of members. A name that repeats keeps its first place and takes its last
value. -/
def ofFields (fields : List (String × Json)) : Json :=
  let members : Ordered String Json := fields.foldl (fun m (name, j) => m.insert name j) .empty
  .object members.entries

mutual

/-- How deep lists and objects are nested; a document without them has depth 0. -/
def nesting : Json → Nat
  | .list items => 1 + nestingAll items
  | .object fields => 1 + nestingFields fields
  | _ => 0

def nestingAll : List Json → Nat
  | [] => 0
  | x :: rest => max x.nesting (nestingAll rest)

def nestingFields : List (String × Json) → Nat
  | [] => 0
  | (_, x) :: rest => max x.nesting (nestingFields rest)

end

/-- A way to read documents from texts. An error is the message for it. -/
abbrev Parser := String → Except String Json

end Json

end ScriptTable
