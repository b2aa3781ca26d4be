import ScriptTable.Json.Fault

/-!
A place in a text that is being read. It knows its line and how many bytes of that line lie before
it, so that an error can name it.
-/

namespace ScriptTable.Json

/-- What is left of a text, and how many lines and bytes of the line lie before it. -/
structure Cursor where
  rest : List Char
  line : Nat
  column : Nat

namespace Cursor

def start (s : String) : Cursor := ⟨s.toList, 1, 0⟩

/-- Past `c`, the first character of what is left. -/
def past (s : Cursor) (c : Char) (rest : List Char) : Cursor :=
  if c = '\n' then ⟨rest, s.line + 1, 0⟩ else ⟨rest, s.line, s.column + c.utf8Size⟩

def next? (s : Cursor) : Option (Char × Cursor) :=
  match s.rest with
  | [] => none
  | c :: rest => some (c, s.past c rest)

/-- An error at the next byte, or at the end of the text when nothing is left. -/
def faultHere (s : Cursor) (f : Fault) : ReadError :=
  match s.rest with
  | [] => ⟨f, s.line, s.column⟩
  | c :: _ => if c = '\n' then ⟨f, s.line + 1, 0⟩ else ⟨f, s.line, s.column + 1⟩

/-- An error at the last byte read. -/
def faultBefore (s : Cursor) (f : Fault) : ReadError := ⟨f, s.line, s.column⟩

/-- An error at the last of the next `n` bytes, or at the end of the text when there are fewer. -/
def faultAfter (s : Cursor) (f : Fault) (n : Nat) : ReadError :=
  go s.rest s.line s.column n
where
  go : List Char → Nat → Nat → Nat → ReadError
    | [], line, column, _ => ⟨f, line, column⟩
    | c :: rest, line, column, n =>
      if n = 0 then ⟨f, line, column⟩
      else if c = '\n' then go rest (line + 1) 0 (n - 1)
      else if n < c.utf8Size then ⟨f, line, column + n⟩
      else go rest line (column + c.utf8Size) (n - c.utf8Size)

/-- Past the characters at the front that satisfy `p`, and those characters. -/
def takeWhile (p : Char → Bool) (s : Cursor) : List Char × Cursor :=
  go s.rest s []
where
  go : List Char → Cursor → List Char → List Char × Cursor
    | [], s, taken => (taken.reverse, s)
    | c :: rest, s, taken =>
      if p c then go rest (s.past c rest) (c :: taken) else (taken.reverse, s)

/-- The white space of JSON: space, tab, line feed and carriage return. -/
def isBlank (c : Char) : Bool := c = ' ' || c = '\t' || c = '\n' || c = '\r'

def skipBlanks (s : Cursor) : Cursor := (s.takeWhile isBlank).2

end Cursor

end ScriptTable.Json
