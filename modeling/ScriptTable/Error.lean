import ScriptTable.Record.Decoding

/-!
What can go wrong between host and scripts. Each kind of error has a code of its own.
-/

namespace ScriptTable

inductive BridgeError where
  /-- The value is a primitive, which has no table form. -/
  | notComposite (typeName : String)
  /-- A walk was asked to go on from a key that is not in the table. -/
  | unknownKey (shown : String)
  | projection (target : String) (source : DecodeError)
  | decompose (source : Datum.Error)
  | depthExceeded (limit : Nat)
  | notATable (typeName : String)

namespace BridgeError

def code : BridgeError → String
  | .notComposite _ => "E2001"
  | .unknownKey _ => "E2002"
  | .projection _ _ => "E2003"
  | .decompose _ => "E2004"
  | .depthExceeded _ => "E2005"
  | .notATable _ => "E2006"

/-- Whether a converter may pass the value through instead. -/
def isRecoverable : BridgeError → Bool
  | .notComposite _ => true
  | _ => false

def detail : BridgeError → String
  | .notComposite typeName => "cannot build a table from a " ++ typeName ++ " value"
  | .unknownKey shown => "unknown key passed to next_key: " ++ shown
  | .projection target source => "projection into `" ++ target ++ "` failed: " ++ source.message
  | .decompose source => "cannot decompose host object: " ++ source.message
  | .depthExceeded limit => "host value nested deeper than " ++ toString limit ++ " levels"
  | .notATable typeName => "expected a table result, got " ++ typeName

def message (e : BridgeError) : String := "[" ++ e.code ++ "] " ++ e.detail

/-- The text of the error that lies beneath, if there is one. -/
def source? : BridgeError → Option String
  | .projection _ source => some source.message
  | .decompose source => some source.message
  | _ => none

end BridgeError

end ScriptTable
