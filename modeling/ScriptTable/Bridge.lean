import ScriptTable.Config
import ScriptTable.Lift
import ScriptTable.Projection

/-!
The boundary that a script is called through: arguments and named values go in, and a table comes
back as a record or a list.
-/

namespace ScriptTable.Bridge

/-- Call arguments in order; the first that cannot be lifted is the error. -/
def convertArgs (c : Config) : List Host → Lift (List Value)
  | [] => return []
  | h :: rest => do
    let v ← h.liftValue c.maxDepth
    return v :: (← convertArgs c rest)

/-- The outcome of writing named values: the environment as far as it was written, the next unused
identity, and the number of values written or the error that stopped it. -/
structure Written where
  env : Table Value
  next : Identity
  outcome : Except BridgeError Nat

/-- Writes named values into an environment until one cannot be lifted. Those before it stay. -/
def putContext (c : Config) (env : Table Value) (next : Identity) :
    List (String × Host) → Written
  | [] => ⟨env, next, .ok 0⟩
  | (name, h) :: rest =>
    match h.liftValue c.maxDepth next with
    | .error e => ⟨env, next, .error e⟩
    | .ok (v, next) =>
      let w := putContext c (env.set (.text name) v) next rest
      { w with outcome := w.outcome.map (· + 1) }

def expectTable : Value → Except BridgeError (Table Value)
  | .table _ t => .ok t
  | v => .error (.notATable v.typeName)

def toHost (target : Target α) (v : Value) : Except BridgeError α := do
  (← expectTable v).project target

def toList (v : Value) : Except BridgeError (List Value) := Table.asList <$> expectTable v

end ScriptTable.Bridge
