import ScriptTable.Error
import ScriptTable.Table

/-!
The document that a table projects to: an object of its text-keyed entries, in order, tables inside
it projected likewise. Everything under other keys is left out, and a float that no document can
hold becomes null.
-/

namespace ScriptTable

mutual

def Value.toJson : Value → Json
  | .none => .null
  | .integer n => .int n
  | .float x => if x.isFinite then .float x else .null
  | .boolean b => .bool b
  | .text s => .text s
  | .table _ t => t.toJson

def Table.toJson : Table Value → Json
  | ⟨_, _, ⟨names, _, ⟨values⟩⟩, _, _⟩ => .object (Value.toFields names.toList values)

def Value.toFields : List String → List Value → List (String × Json)
  | name :: names, v :: vs => (name, v.toJson) :: Value.toFields names vs
  | _, _ => []

end

/-- A type to read tables into, by the name that errors give it. -/
structure Target (α : Type) where
  name : String
  decode : Json → Except DecodeError α

def Table.project (target : Target α) (t : Table Value) : Except BridgeError α :=
  match target.decode t.toJson with
  | .ok a => .ok a
  | .error e => .error (.projection target.name e)

end ScriptTable
