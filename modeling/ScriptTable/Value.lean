import ScriptTable.Key
import ScriptTable.Partition.Sorted
import ScriptTable.Partition.Ordered

/-!
Script values. A value is a primitive or a table, and a table has an identity besides its contents:
two tables with equal contents are two different keys. Tables inside values never change, so an
identity is a number given once, when the value is made; a copy of a table under a new number
shares the tables inside it.
-/

namespace ScriptTable

abbrev Identity := Nat

/-- Entries whose keys have no traversal order, in the order of their first insertion. -/
structure Fallback (V : Type) where
  keys : Array V
  values : Array V

/-- Storage split by the kind of key, so that a key is never in two places. -/
structure Table (V : Type) where
  integers : Sorted V
  floats : Ordered FloatKey V
  texts : Ordered String V
  booleans : Ordered Bool V
  fallback : Fallback V

inductive Value where
  | none
  | integer (n : Int)
  | float (x : Double)
  | boolean (b : Bool)
  | text (s : String)
  | table (id : Identity) (t : Table Value)

def Table.empty : Table V := ⟨.empty, .empty, .empty, .empty, ⟨#[], #[]⟩⟩

namespace Value

instance : Inhabited Value := ⟨.none⟩

def typeName : Value → String
  | .none => "None"
  | .integer _ => "Int"
  | .float _ => "Float"
  | .boolean _ => "Bool"
  | .text _ => "String"
  | .table _ _ => "Table"

/-- The key that a value is in a table. `none` is no key, and tables are keys of the fallback
partition only. -/
def toKey? : Value → Option Key
  | .integer n => some (.integer n)
  | .float x => some (.ofDouble x)
  | .text s => some (.text s)
  | .boolean b => some (.boolean b)
  | .none | .table _ _ => Option.none

def isTable : Value → Bool
  | .table _ _ => true
  | _ => false

end Value

def Key.toValue : Key → Value
  | .integer n => .integer n
  | .float x => .float x.value
  | .text s => .text s
  | .boolean b => .boolean b

@[simp] theorem Value.toKey?_toValue (k : Key) : k.toValue.toKey? = some k := by
  cases k <;> simp [Key.toValue, Value.toKey?, Key.ofDouble]

end ScriptTable
