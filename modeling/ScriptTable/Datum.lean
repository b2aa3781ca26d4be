import ScriptTable.Double.Layout
import ScriptTable.Json

/-!
Structured data of any type, in the few forms that types are built from, and its decomposition
into a document. Only a map whose keys have a text form and numbers of 64 bits decompose. This is how
the types of `Record.Shapes` are written; a host may write its own in other ways.
-/

namespace ScriptTable

inductive Datum where
  /-- Also a value that is absent, and a type with nothing inside. -/
  | unit
  | some (d : Datum)
  | bool (b : Bool)
  | int (n : Int)
  | float (x : Double)
  | char (c : Char)
  | text (s : String)
  /-- Also tuples and byte strings. -/
  | sequence (items : List Datum)
  | record (fields : List (String × Datum))
  | map (entries : List (Datum × Datum))
  /-- A case of an enumeration that holds nothing. -/
  | tag (name : String)
  /-- A case of an enumeration with what it holds. -/
  | variant (name : String) (payload : Datum)

namespace Datum

inductive Error where
  | keyNotText
  | floatKey
  | numberOutOfRange
  /-- Whatever else a type refuses to be written for. -/
  | other (message : String)
  deriving DecidableEq, Repr

def Error.message : Error → String
  | .keyNotText => "key must be a string"
  | .floatKey => "float key must be finite (got NaN or +/-inf)"
  | .numberOutOfRange => "number out of range"
  | .other message => message

/-- The name that a key of a map takes in a document. -/
def keyText : Datum → Except Error String
  | .bool b => .ok (toString b)
  | .int n => .ok (toString n)
  | .float x => if x.isFinite then .ok (Double.jsonLayout.write x) else .error .floatKey
  | .char c => .ok (String.singleton c)
  | .text s => .ok s
  | .tag name => .ok name
  | _ => .error .keyNotText

mutual

/-- A float that is not finite becomes null. -/
def toJson : Datum → Except Error Json
  | .unit => .ok .null
  | .some d => d.toJson
  | .bool b => .ok (.bool b)
  | .int n =>
    if -0x8000000000000000 ≤ n ∧ n < 0x10000000000000000 then .ok (.int n)
    else .error .numberOutOfRange
  | .float x => .ok (if x.isFinite then .float x else .null)
  | .char c => .ok (.text (String.singleton c))
  | .text s => .ok (.text s)
  | .sequence items => .list <$> itemsToJson items
  | .record fields => Json.ofFields <$> fieldsToJson fields
  | .map entries => Json.ofFields <$> entriesToJson entries
  | .tag name => .ok (.text name)
  | .variant name payload => (fun j => .object [(name, j)]) <$> payload.toJson

def itemsToJson : List Datum → Except Error (List Json)
  | [] => .ok []
  | d :: rest => do
    let j ← d.toJson
    return j :: (← itemsToJson rest)

def fieldsToJson : List (String × Datum) → Except Error (List (String × Json))
  | [] => .ok []
  | (name, d) :: rest => do
    let j ← d.toJson
    return (name, j) :: (← fieldsToJson rest)

def entriesToJson : List (Datum × Datum) → Except Error (List (String × Json))
  | [] => .ok []
  | (k, d) :: rest => do
    let name ← k.keyText
    let j ← d.toJson
    return (name, j) :: (← entriesToJson rest)

end

end Datum

end ScriptTable
