import Std.Data.TreeMap
import ScriptTable.Datum
import ScriptTable.Text.Quoted

/-!
Reading typed data from a document. A record is read in the order of the document's members: the
first member that its field refuses is the error, and only when all are accepted is the first field
without a member reported.
-/

namespace ScriptTable

inductive DecodeError where
  | invalidType (found : Json) (wanted : String)
  | invalidValue (found : Int) (wanted : String)
  | missingField (name : String)
  | unknownField (name : String) (known : List String)
  /-- Whatever else a type finds wrong with a document. -/
  | other (message : String)

namespace DecodeError

def ticked (s : String) : String := "`" ++ s ++ "`"

/-- How a message names a document that has the wrong type. -/
def describe : Json → String
  | .null => "null"
  | .bool b => "boolean " ++ ticked (toString b)
  | .int n => "integer " ++ ticked (toString n)
  | .float x => "floating point " ++ ticked (Double.jsonLayout.write x)
  | .text s => "string " ++ Text.quoted s
  | .list _ => "sequence"
  | .object _ => "map"

def oneOf : List String → String
  | [] => "there are no fields"
  | [a] => "expected " ++ ticked a
  | [a, b] => "expected " ++ ticked a ++ " or " ++ ticked b
  | names => "expected one of " ++ ", ".intercalate (names.map ticked)

def message : DecodeError → String
  | .invalidType found wanted => "invalid type: " ++ describe found ++ ", expected " ++ wanted
  | .invalidValue found wanted =>
    "invalid value: integer " ++ ticked (toString found) ++ ", expected " ++ wanted
  | .missingField name => "missing field " ++ ticked name
  | .unknownField name known => "unknown field " ++ ticked name ++ ", " ++ oneOf known
  | .other message => message

end DecodeError

/-- A type whose values are read from a document, and written as structured data. -/
class Shape (α : Type) where
  encode : α → Datum
  decode : Json → Except DecodeError α

namespace Shape

/-- A whole number from `low` to below `high`. -/
def decodeInt (low high : Int) (wanted : String) : Json → Except DecodeError Int
  | .int n => if low ≤ n ∧ n < high then .ok n else .error (.invalidValue n wanted)
  | j => .error (.invalidType j wanted)

instance : Shape Int64 where
  encode n := .int n.toInt
  decode j := Int64.ofInt <$> decodeInt (-0x8000000000000000) 0x8000000000000000 "i64" j

instance : Shape UInt32 where
  encode n := .int n.toNat
  decode j := (fun n => UInt32.ofNat n.toNat) <$> decodeInt 0 0x100000000 "u32" j

instance : Shape UInt64 where
  encode n := .int n.toNat
  decode j := (fun n => UInt64.ofNat n.toNat) <$> decodeInt 0 0x10000000000000000 "u64" j

/-- A whole number stands for the nearest float. -/
instance : Shape Double where
  encode x := .float x
  decode
    | .int n => .ok (.ofInt n)
    | .float x => .ok x
    | j => .error (.invalidType j "f64")

instance : Shape Bool where
  encode b := .bool b
  decode
    | .bool b => .ok b
    | j => .error (.invalidType j "a boolean")

instance : Shape String where
  encode s := .text s
  decode
    | .text s => .ok s
    | j => .error (.invalidType j "a string")

instance [Shape α] : Shape (Option α) where
  encode o := (o.map fun a => .some (encode a)).getD .unit
  decode
    | .null => .ok none
    | j => some <$> decode j

instance [Shape α] : Shape (List α) where
  encode items := .sequence (items.map encode)
  decode
    | .list items => items.mapM decode
    | j => .error (.invalidType j "a sequence")

instance [Shape α] : Shape (Std.TreeMap String α) where
  encode m := .map (m.toList.map fun (k, a) => (.text k, encode a))
  decode
    | .object fields => fields.foldlM (fun m (name, j) => return m.insert name (← decode j)) ∅
    | j => .error (.invalidType j "a map")

end Shape

/-- A field of a record: how its member is read, and what it is when there is none. -/
structure Field (α : Type) where
  name : String
  decode : Json → Except DecodeError α
  absent : Option α

namespace Field

def required [Shape α] (name : String) : Field α := ⟨name, Shape.decode, none⟩
def withDefault [Shape α] (name : String) (a : α) : Field α := ⟨name, Shape.decode, some a⟩

/-- A field's name with the question whether it accepts a member. -/
abbrev Check := String × (Json → Except DecodeError Unit)

def check (f : Field α) : Check := (f.name, fun j => discard (f.decode j))

/-- Asks the fields about every member in turn. Members that belong to no field are passed over, or
refused when `strict`. -/
def checkAll (checks : List Check) (strict : Bool) :
    List (String × Json) → Except DecodeError Unit
  | [] => .ok ()
  | (name, j) :: rest => do
    match checks.lookup name with
    | some accepts => accepts j
    | none => if strict then throw (.unknownField name (checks.map (·.1)))
    checkAll checks strict rest

def read (f : Field α) (fields : List (String × Json)) : Except DecodeError α :=
  match fields.lookup f.name, f.absent with
  | some j, _ => f.decode j
  | none, some a => .ok a
  | none, none => .error (.missingField f.name)

/-- The members of a document that is to be a record, accepted by its fields. A list is not read as
a record: what a table projects to holds none. -/
def members (wanted : String) (checks : List Check) (strict : Bool) :
    Json → Except DecodeError (List (String × Json))
  | .object fields => do
    checkAll checks strict fields
    return fields
  | j => .error (.invalidType j wanted)

end Field

end ScriptTable
