import ScriptTable.CommandLine

/-!
The command as a program.
-/

namespace ScriptTable.CommandLine

/-- The fault that an error reports. Some calls give the negated number. -/
def fault? (code : UInt32) : Option FileFault :=
  FileFault.ofNumber? (min code.toNat (-code).toNat)

def describe (e : IO.Error) : String :=
  let fault := match e with
    | .noFileOrDirectory _ code _ => fault? code
    | .permissionDenied _ code _ => fault? code
    | .inappropriateType _ code _ => fault? code
    | .invalidArgument _ code _ => fault? code
    | _ => none
  (fault.map FileFault.message).getD (toString e)

def readBytes : Source → IO (Except String ByteArray)
  | .stdin => return .ok (← (← IO.getStdin).readBinToEnd)
  | .file path =>
    try
      return .ok (← IO.FS.readBinFile path)
    catch e =>
      return .error (describe e)

end ScriptTable.CommandLine

open ScriptTable.CommandLine in
def main (args : List String) : IO UInt32 := do
  let request := Request.ofArgs args (← IO.getEnv "TABLEBRIDGE_MAX_DEPTH")
  let input ← match request.source? with
    | some source => readBytes source
    | none => pure (.ok .empty)
  let outcome := request.answer ScriptTable.Json.parse input
  IO.print outcome.stdout
  IO.eprint outcome.stderr
  return outcome.code.toUInt32
