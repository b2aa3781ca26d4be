import ScriptTable.Bridge
import ScriptTable.FileTree
import ScriptTable.Json.Reader
import ScriptTable.Table.Traversal

/-!
The command: it reads a JSON document, lifts it to a table, and prints the table, its positional
view or its keys. What it prints is a function of the parser it reads with, the arguments, one
environment variable, standard input and the files. The log lines that it can be asked for on
standard error are left out.
-/

namespace ScriptTable.CommandLine

/-- Where a document comes from. -/
inductive Source where
  | stdin
  | file (path : String)
  deriving DecidableEq, Repr

structure Outcome where
  code : UInt8
  stdout : String
  /-- The messages on standard error. Log lines may stand between them. -/
  stderr : String
  deriving DecidableEq, Repr

def lines (ls : List String) : String := String.join (ls.map (· ++ "\n"))

def failure (code : UInt8) (message : String) : Outcome := ⟨code, "", lines [message]⟩

def help : String := lines
  [ "tablebridge",
    "",
    "Usage:",
    "  tablebridge show <file.json|->   Print the lifted table in traversal order",
    "  tablebridge list <file.json|->   Print the positional (integer-keyed) view",
    "  tablebridge keys <file.json|->   Walk the first-key/next-key protocol",
    "",
    "Flags:",
    "  --trace            Log conversions to stderr (or set RUST_LOG)",
    "  --max-depth <n>    Deepest nesting accepted while lifting (default: 128,",
    "                     env: TABLEBRIDGE_MAX_DEPTH)" ]

/-- What is wrong with a depth flag. -/
inductive FlagError where
  | noValue
  | notADepth
  deriving DecidableEq, Repr

def FlagError.message : FlagError → String
  | .noValue => "Usage: tablebridge <command> <file.json> --max-depth <n>"
  | .notADepth => "Error: --max-depth expects a non-negative integer."

/-- The arguments that are left and the settings, the depth flags taken out from left to right. A
flag takes the next argument as its value, whatever that is, and the last flag wins. -/
def takeDepth (c : Config) : List String → Except FlagError (List String × Config)
  | [] => .ok ([], c)
  | arg :: rest =>
    if arg = "--max-depth" then
      match rest with
      | [] => .error .noValue
      | value :: rest =>
        match Config.depth? value.toList with
        | some n => takeDepth { c with maxDepth := n } rest
        | none => .error .notADepth
    else (fun (args, c) => (arg :: args, c)) <$> takeDepth c rest

/-- The commands that read a document. -/
inductive View where
  | display
  | list
  | keys
  deriving DecidableEq, Repr

def View.name : View → String
  | .display => "show"
  | .list => "list"
  | .keys => "keys"

def View.ofName? (name : String) : Option View :=
  [View.display, .list, .keys].find? (·.name == name)

/-- What the arguments ask for. -/
inductive Request where
  | help
  | view (v : View) (path : String) (c : Config)
  /-- A view without a file. -/
  | incomplete (v : View)
  | unknown (command : String)
  | badFlag (e : FlagError)
  deriving DecidableEq, Repr

def Request.ofArgs (args : List String) (env : Option String) : Request :=
  match takeDepth (.ofEnvironment env) (args.filter (· ≠ "--trace")) with
  | .error e => .badFlag e
  | .ok ([], _) => .help
  | .ok (command :: rest, c) =>
    if command = "-h" ∨ command = "--help" ∨ command = "help" then .help
    else match View.ofName? command, rest with
      | some v, path :: _ => .view v path c
      | some v, [] => .incomplete v
      | none, _ => .unknown command

def Source.ofPath (path : String) : Source := if path = "-" then .stdin else .file path

/-- The document that a request has to read. -/
def Request.source? : Request → Option Source
  | .view _ path _ => some (.ofPath path)
  | _ => none

/-- Why there is no table to print. -/
inductive LoadError where
  | unreadable (what reason : String)
  | malformed (path reason : String)
  | refused (e : BridgeError)

def LoadError.message : LoadError → String
  | .unreadable what reason => "failed to read " ++ what ++ ": " ++ reason
  | .malformed path reason => "invalid JSON in " ++ path ++ ": " ++ reason
  | .refused e => e.message

/-- The text of what was read, which has to be UTF-8. -/
def decodeText (path : String) (input : Except String ByteArray) : Except LoadError String :=
  let what := if path = "-" then "stdin" else path
  match input with
  | .error reason => .error (.unreadable what reason)
  | .ok bytes =>
    match String.fromUTF8? bytes with
    | some s => .ok s
    | none => .error (.unreadable what "stream did not contain valid UTF-8")

/-- The table of a document. A primitive becomes a table of one item. -/
def tableOf (c : Config) (j : Json) : Except BridgeError (Table Value) :=
  match (Host.ofJson j).liftValue c.maxDepth 0 with
  | .ok (.table _ t, _) => .ok t
  | .ok (v, _) => .ok (.ofList [v])
  | .error e => .error e

def load (parse : Json.Parser) (c : Config) (path : String) (input : Except String ByteArray) :
    Except LoadError (Table Value) := do
  let text ← decodeText path input
  let j ← (parse text).mapError (.malformed path)
  (tableOf c j).mapError .refused

def View.print (v : View) (t : Table Value) : Outcome :=
  match v with
  | .display => ⟨0, lines [t.render], ""⟩
  | .list => ⟨0, lines (t.asList.map Value.render), ""⟩
  | .keys =>
    let w := t.walk
    let printed := lines (w.keys.map Value.render)
    match w.error with
    | none => ⟨0, printed, ""⟩
    | some e => ⟨1, printed, lines ["Error: " ++ e.message]⟩

/-- The outcome of a request, `input` being what reading its source gave. -/
def Request.answer (parse : Json.Parser) (input : Except String ByteArray) : Request → Outcome
  | .help => ⟨0, CommandLine.help, ""⟩
  | .badFlag e => failure 2 e.message
  | .incomplete v => failure 2 ("Usage: tablebridge " ++ v.name ++ " <file.json|->")
  | .unknown command =>
    ⟨2, CommandLine.help, lines ["Error: unknown command `" ++ command ++ "`"]⟩
  | .view v path c =>
    match load parse c path input with
    | .error e => failure 1 ("Error: " ++ e.message)
    | .ok t => v.print t

/-- What a run sees besides its arguments. -/
structure Surroundings where
  /-- The value of the environment variable for the depth. -/
  depth : Option String
  stdin : ByteArray
  files : FileTree

def Source.read (s : Surroundings) : Source → Except String ByteArray
  | .stdin => .ok s.stdin
  | .file path => (s.files.read path).mapError FileFault.message

/-- The outcome of the command with any parser. -/
def runWith (parse : Json.Parser) (args : List String) (s : Surroundings) : Outcome :=
  let request := Request.ofArgs args s.depth
  request.answer parse ((request.source?.map (Source.read s)).getD (.ok .empty))

def run : List String → Surroundings → Outcome := runWith Json.parse

end ScriptTable.CommandLine
