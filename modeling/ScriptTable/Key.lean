import ScriptTable.Double.Layout

/-!
Keys of a table and their kinds. The kind of a key alone decides where in a table it is stored,
and the kinds are visited in a fixed order.
-/

namespace ScriptTable

inductive Kind where
  | integer
  | float
  | text
  | boolean
  deriving DecidableEq, Repr

namespace Kind

/-- The order in which a table is traversed. -/
def order : List Kind := [.integer, .float, .text, .boolean]

def rank : Kind → Nat
  | .integer => 0
  | .float => 1
  | .text => 2
  | .boolean => 3

instance : LT Kind := ⟨fun a b => a.rank < b.rank⟩
instance (a b : Kind) : Decidable (a < b) := inferInstanceAs (Decidable (a.rank < b.rank))

/-- The kinds that are visited after this one. -/
def following (k : Kind) : List Kind := order.filter (k < ·)

end Kind

/-- A float as a key: its canonical form, so that numerically equal floats are one key and all
NaN are one key. -/
structure FloatKey where
  value : Double
  canonical : value.canonical = value
  deriving DecidableEq

namespace FloatKey

instance : Hashable FloatKey := ⟨fun k => hash k.value⟩
instance : EquivBEq FloatKey := instEquivBEqOfLawfulBEq
instance : LawfulHashable FloatKey := instLawfulHashableOfLawfulBEq

def ofDouble (x : Double) : FloatKey := ⟨x.canonical, x.canonical_canonical⟩

@[simp] theorem value_ofDouble (x : Double) : (ofDouble x).value = x.canonical := rfl

theorem ext_iff {j k : FloatKey} : j = k ↔ j.value = k.value := by
  cases j; cases k; simp

@[simp] theorem ofDouble_value (k : FloatKey) : ofDouble k.value = k := ext_iff.2 k.canonical

end FloatKey

inductive Key where
  | integer (n : Int)
  | float (x : FloatKey)
  | text (s : String)
  | boolean (b : Bool)
  deriving DecidableEq

namespace Key

def kind : Key → Kind
  | .integer _ => .integer
  | .float _ => .float
  | .text _ => .text
  | .boolean _ => .boolean

def ofDouble (x : Double) : Key := .float (.ofDouble x)

/-- The text of a key. Text stands in quotes as it is, without escapes. -/
def render : Key → String
  | .integer n => toString n
  | .float x => Double.display.write x.value
  | .text s => "\"" ++ s ++ "\""
  | .boolean b => toString b

end Key

end ScriptTable
