import Std.Data.TreeMap
import ScriptTable.Json

/-!
Host values: what the program around the scripts hands over. A map keeps its entries in order with
their repetitions, and its keys may be any values. A structured value is a document that is taken
apart only when it is converted.
-/

namespace ScriptTable

inductive Host where
  | null
  | integer (n : Int)
  | float (x : Double)
  | boolean (b : Bool)
  | text (s : String)
  | sequence (items : List Host)
  | map (entries : List (Host × Host))
  | structured (j : Json)

namespace Host

instance : Inhabited Host := ⟨.null⟩

def typeName : Host → String
  | .null => "Null"
  | .integer _ => "Int"
  | .float _ => "Float"
  | .boolean _ => "Bool"
  | .text _ => "String"
  | .sequence _ => "Sequence"
  | .map _ => "Map"
  | .structured _ => "Structured"

/-- A structured value counts as composite whatever document it holds. -/
def isComposite : Host → Bool
  | .sequence _ | .map _ | .structured _ => true
  | _ => false

/-- Whole numbers of 64 bits with a sign. -/
def fitsInteger (n : Int) : Bool := -0x8000000000000000 ≤ n && n < 0x8000000000000000

/-- A whole number that 64 bits with a sign do not hold becomes the nearest float. -/
def ofInt (n : Int) : Host := if fitsInteger n then .integer n else .float (.ofInt n)

mutual

def ofJson : Json → Host
  | .null => .null
  | .bool b => .boolean b
  | .int n => ofInt n
  | .float x => .float x
  | .text s => .text s
  | .list items => .sequence (ofItems items)
  | .object fields => .map (ofFields fields)

def ofItems : List Json → List Host
  | [] => []
  | j :: rest => ofJson j :: ofItems rest

def ofFields : List (String × Json) → List (Host × Host)
  | [] => []
  | (name, j) :: rest => (.text name, ofJson j) :: ofFields rest

end

/-- One step of decomposition: the document of a structured value, any other value as it is. -/
def decompose : Host → Host
  | .structured j => ofJson j
  | h => h

mutual

/-- Structural equality, floats compared numerically. -/
def equiv : Host → Host → Bool
  | .null, .null => true
  | .integer m, .integer n => m == n
  | .float x, .float y => x.numEq y
  | .boolean a, .boolean b => a == b
  | .text s, .text t => s == t
  | .sequence xs, .sequence ys => equivAll xs ys
  | .map xs, .map ys => equivEntries xs ys
  | .structured i, .structured j => i.equiv j
  | _, _ => false

def equivAll : List Host → List Host → Bool
  | [], [] => true
  | x :: xs, y :: ys => x.equiv y && equivAll xs ys
  | _, _ => false

def equivEntries : List (Host × Host) → List (Host × Host) → Bool
  | [], [] => true
  | (j, x) :: xs, (k, y) :: ys => j.equiv k && x.equiv y && equivEntries xs ys
  | _, _ => false

end

end Host

/-- Types whose values are host values in their own right. -/
class ToHost (α : Type) where
  toHost : α → Host

export ToHost (toHost)

instance : ToHost Host := ⟨id⟩
instance : ToHost Int := ⟨Host.ofInt⟩
instance : ToHost UInt64 := ⟨fun n => Host.ofInt n.toNat⟩
instance : ToHost Double := ⟨Host.float⟩
instance : ToHost Single := ⟨fun x => .float x.toDouble⟩
instance : ToHost Bool := ⟨Host.boolean⟩
instance : ToHost String := ⟨Host.text⟩
instance : ToHost Json := ⟨Host.ofJson⟩

instance [ToHost α] : ToHost (Option α) := ⟨fun o => (o.map toHost).getD .null⟩
instance [ToHost α] : ToHost (List α) := ⟨fun items => .sequence (items.map toHost)⟩

/-- A map gives its entries in the order of its keys. -/
instance [ToHost α] [ToHost β] [Ord α] : ToHost (Std.TreeMap α β) :=
  ⟨fun m => .map (m.toList.map fun (k, v) => (toHost k, toHost v))⟩

end ScriptTable
