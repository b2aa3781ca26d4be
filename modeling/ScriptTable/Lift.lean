import ScriptTable.Error
import ScriptTable.Host
import ScriptTable.Table

/-!
Lifting host values to script values. Primitives pass through and composites become tables, down
to a limit on their nesting. Every table that ends up inside a value gets an identity of its own
from a counter that is threaded through the conversion.
-/

namespace ScriptTable

/-- A conversion: it draws identities from a counter and may fail. -/
abbrev Lift := StateT Identity (Except BridgeError)

/-- What a host value becomes before a table gets an identity. -/
inductive Lifted where
  | primitive (v : Value)
  | table (t : Table Value)

namespace Lift

def fresh (t : Table Value) : Lift Value := fun next => .ok (.table next t, next + 1)

def settle : Lifted → Lift Value
  | .primitive v => pure v
  | .table t => fresh t

/-- A composite at `depth`, counted from 1, is refused beyond the limit before it is looked into. -/
def guardDepth (limit depth : Nat) : Lift Unit :=
  if limit < depth then throw (.depthExceeded limit) else pure ()

end Lift

/-- A whole number of a document as a script value. -/
def Value.ofInt (n : Int) : Value :=
  if Host.fitsInteger n then .integer n else .float (.ofInt n)

mutual

/-- A document is lifted as it stands, without building the host values that it decomposes to. -/
def Json.liftAt (limit depth : Nat) : Json → Lift Lifted
  | .null => return .primitive .none
  | .bool b => return .primitive (.boolean b)
  | .int n => return .primitive (.ofInt n)
  | .float x => return .primitive (.float x)
  | .text s => return .primitive (.text s)
  | .list items => do
    Lift.guardDepth limit depth
    return .table (← Json.liftItems limit (depth + 1) items 1 .empty)
  | .object fields => do
    Lift.guardDepth limit depth
    return .table (← Json.liftFields limit (depth + 1) fields .empty)

def Json.liftItems (limit depth : Nat) : List Json → Int → Table Value → Lift (Table Value)
  | [], _, t => return t
  | j :: rest, i, t => do
    let v ← Lift.settle (← j.liftAt limit depth)
    Json.liftItems limit depth rest (i + 1) (t.setKey (.integer i) v)

def Json.liftFields (limit depth : Nat) :
    List (String × Json) → Table Value → Lift (Table Value)
  | [], t => return t
  | (name, j) :: rest, t => do
    let v ← Lift.settle (← j.liftAt limit depth)
    Json.liftFields limit depth rest (t.setKey (.text name) v)

end

mutual

def Host.liftAt (limit depth : Nat) : Host → Lift Lifted
  | .null => return .primitive .none
  | .integer n => return .primitive (.integer n)
  | .float x => return .primitive (.float x)
  | .boolean b => return .primitive (.boolean b)
  | .text s => return .primitive (.text s)
  | .structured j => j.liftAt limit depth
  | .sequence items => do
    Lift.guardDepth limit depth
    return .table (← Host.liftItems limit (depth + 1) items 1 .empty)
  | .map entries => do
    Lift.guardDepth limit depth
    return .table (← Host.liftEntries limit (depth + 1) entries .empty)

def Host.liftItems (limit depth : Nat) : List Host → Int → Table Value → Lift (Table Value)
  | [], _, t => return t
  | h :: rest, i, t => do
    let v ← Lift.settle (← h.liftAt limit depth)
    Host.liftItems limit depth rest (i + 1) (t.setKey (.integer i) v)

/-- An entry whose key turns out to be a table is passed over, its value unseen. -/
def Host.liftEntries (limit depth : Nat) :
    List (Host × Host) → Table Value → Lift (Table Value)
  | [], t => return t
  | (k, h) :: rest, t => do
    match ← k.liftAt limit depth with
    | .table _ => Host.liftEntries limit depth rest t
    | .primitive key =>
      let v ← Lift.settle (← h.liftAt limit depth)
      Host.liftEntries limit depth rest (t.set key v)

end

def Host.liftValue (limit : Nat) (h : Host) : Lift Value := do
  Lift.settle (← h.liftAt limit 1)

/-- The table of a composite. The limit is looked at first, so a limit of 0 refuses primitives
too. -/
def Host.liftTable (limit : Nat) (h : Host) : Lift (Table Value) := do
  Lift.guardDepth limit 1
  match ← h.liftAt limit 1 with
  | .table t => return t
  | .primitive _ => throw (.notComposite h.decompose.typeName)

/-- Writes one entry, both sides lifted; nothing is written when either fails. -/
def Table.setHost (limit : Nat) (t : Table Value) (key value : Host) : Lift (Table Value) := do
  let k ← key.liftValue limit
  let v ← value.liftValue limit
  return t.set k v

/-- An object of the program as a host value: the document that it is written as, taken apart when it
is converted. -/
def Host.ofObject (encode : α → Except Datum.Error Json) (a : α) : Except BridgeError Host :=
  match encode a with
  | .ok j => .ok (.structured j)
  | .error e => .error (.decompose e)

def Host.ofDatum : Datum → Except BridgeError Host := ofObject Datum.toJson

end ScriptTable
