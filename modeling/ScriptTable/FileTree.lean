/-!
Files by path. A path is walked name by name, from the root if it starts with a slash and from the
working folder otherwise. Every step starts in a folder, also a step that stays or goes back, so a
path leads through no file: neither `a/` nor `a/../a` gives the file `a`.
-/

namespace ScriptTable

/-- Why reading a path gives no file. -/
inductive FileFault where
  | missing
  | forbidden
  | notAFolder
  | isAFolder
  | nameTooLong
  deriving DecidableEq, Repr

namespace FileFault

def all : List FileFault := [missing, forbidden, notAFolder, isAFolder, nameTooLong]

/-- The number that the operating system has for a fault. -/
def number : FileFault → Nat
  | missing => 2
  | forbidden => 13
  | notAFolder => 20
  | isAFolder => 21
  | nameTooLong => 36

def ofNumber? (n : Nat) : Option FileFault := all.find? (·.number == n)

def reason : FileFault → String
  | missing => "No such file or directory"
  | forbidden => "Permission denied"
  | notAFolder => "Not a directory"
  | isAFolder => "Is a directory"
  | nameTooLong => "File name too long"

def message (e : FileFault) : String := e.reason ++ " (os error " ++ toString e.number ++ ")"

end FileFault

/-- A place is given by the names that lead to it from the root. -/
structure FileTree where
  workingFolder : List String
  /-- Folders, each of them with those on the way to it. -/
  folders : List (List String)
  files : List (List String × ByteArray)

namespace FileTree

def maxNameBytes : Nat := 255

def maxPathBytes : Nat := 4095

/-- The names between the slashes of a path, empty ones too. -/
def names : List Char → List (List Char)
  | [] => [[]]
  | c :: rest =>
    if c = '/' then [] :: names rest
    else match names rest with
      | [] => [[c]]
      | name :: more => (c :: name) :: more

def isFile (t : FileTree) (place : List String) : Bool := t.files.any (·.1 == place)

/-- Whatever is on the way to a file or a folder is a folder. -/
def isFolder (t : FileTree) (place : List String) : Bool :=
  (t.workingFolder :: t.folders).any (place.isPrefixOf ·) ||
    t.files.any fun (file, _) => place.isPrefixOf file && place != file

/-- Where a name leads. The root is its own parent. -/
def step (t : FileTree) (place : List String) (name : String) : Except FileFault (List String) :=
  if !t.isFolder place then .error .notAFolder
  else if name = "" ∨ name = "." then .ok place
  else if name = ".." then .ok place.dropLast
  else if maxNameBytes < name.utf8ByteSize then .error .nameTooLong
  else
    let next := place ++ [name]
    if t.isFolder next || t.isFile next then .ok next else .error .missing

/-- Where a path leads. -/
def resolve (t : FileTree) (path : String) : Except FileFault (List String) :=
  if path = "" then .error .missing
  else if maxPathBytes < path.utf8ByteSize then .error .nameTooLong
  else
    let start := if path.toList.head? = some '/' then [] else t.workingFolder
    ((names path.toList).map String.ofList).foldlM t.step start

/-- The bytes of the file that a path leads to. -/
def read (t : FileTree) (path : String) : Except FileFault ByteArray := do
  match t.files.lookup (← t.resolve path) with
  | some bytes => .ok bytes
  | none => .error .isAFolder

end FileTree

end ScriptTable
