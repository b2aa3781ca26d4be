import ScriptTable.Json
import ScriptTable.Json.Cursor
import ScriptTable.Json.Decimal

/-!
Reading a JSON document from a text. A text is refused at the first byte that no document has
there. Lists and objects may be nested 127 deep; the one that would be the 128th is refused where
it opens. A loop takes a character in each round, so the characters that are left when it starts
serve as its fuel.
-/

namespace ScriptTable.Json

abbrev Reader := StateT Cursor (Except ReadError)

namespace Reader

def fail (f : Fault) : Reader α := fun s => .error (s.faultHere f)
def failBefore (f : Fault) : Reader α := fun s => .error (s.faultBefore f)
def failAfter (f : Fault) (n : Nat) : Reader α := fun s => .error (s.faultAfter f n)

def peek : Reader (Option Char) := return (← get).rest.head?

/-- Takes the next character; at the end of the text it does nothing. -/
def skip : Reader Unit := modify fun s => (s.next?.map (·.2)).getD s

def skipBlanks : Reader Unit := modify (·.skipBlanks)

def digits : Reader (List Char) := modifyGet (·.takeWhile Char.isDigit)

/-- The characters of a literal after its first. -/
def literal (rest : List Char) (j : Json) : Reader Json := do
  for c in rest do
    match ← peek with
    | none => fail .endOfValue
    | some d => if d = c then skip else fail .expectedIdent
  return j

/-- The digits of an exponent. A positive exponent of 2^31 or more is refused at the digit that
makes it so large, unless the digits before it are all zero. -/
def exponentDigits (refuse : Bool) : List Char → Nat → Reader Nat
  | [], e => return e
  | _ :: fuel, e => do
    match ← peek with
    | some c =>
      if c.isDigit then
        let e := 10 * e + (c.toNat - 48)
        if refuse && 0x80000000 ≤ e then fail .numberOutOfRange
        skip
        exponentDigits refuse fuel e
      else return e
    | none => return e

/-- An exponent, its mark already taken. -/
def exponent (zero : Bool) : Reader Int := do
  let negative := (← peek) == some '-'
  if negative || (← peek) == some '+' then skip
  match ← peek with
  | none => fail .endOfValue
  | some c => if !c.isDigit then fail .invalidNumber
  let e ← exponentDigits (!zero && !negative) (← get).rest 0
  return if negative then -e else e

/-- The digits before the point: one zero, or any number that does not start with zero. -/
def wholeDigits : Reader (List Char) := do
  match ← peek with
  | none => fail .endOfValue
  | some '0' =>
    skip
    match ← peek with
    | some c => if c.isDigit then fail .invalidNumber
    | none => pure ()
    return ['0']
  | some c => if c.isDigit then digits else fail .invalidNumber

/-- The digits after the point, the point included in what is read. -/
def fractionDigits : Reader (List Char) := do
  skip
  let ds ← digits
  if ds.isEmpty then
    match ← peek with
    | none => fail .endOfValue
    | some _ => fail .invalidNumber
  return ds

def isMark (c : Char) : Bool := c = 'e' || c = 'E'

/-- A number, its minus already taken. Without a fraction and an exponent it is a whole number if
64 bits hold it, unsigned or with its sign; every other number is a float, and so is negative
zero. -/
def number (negative : Bool) : Reader Json := do
  let whole ← wholeDigits
  let fraction ← if (← peek) == some '.' then some <$> fractionDigits else pure none
  let d := decimalOfDigits whole (fraction.getD [])
  let n := d.coefficient
  let mark := ((← peek).map isMark).getD false
  let e ← if mark then do skip; some <$> exponent (n = 0) else pure none
  let plain := fraction.isNone && e.isNone && d.scale = 0
  if plain && (if negative then 0 < n ∧ n ≤ 0x8000000000000000 else n < 0x10000000000000000) then
    return .int (if negative then -n else n)
  let x := { d with scale := d.scale + e.getD 0 }.toDouble negative
  if x.isFinite then return .float x else failBefore .numberOutOfRange

def hexValue? (c : Char) : Option Nat :=
  if '0' ≤ c ∧ c ≤ '9' then some (c.toNat - 48)
  else if 'a' ≤ c ∧ c ≤ 'f' then some (c.toNat - 87)
  else if 'A' ≤ c ∧ c ≤ 'F' then some (c.toNat - 55)
  else none

/-- Four hexadecimal digits. -/
def hex4 : Reader Nat := do
  let next := (← get).rest.take 4
  if next.foldl (fun n c => n + c.utf8Size) 0 < 4 then failAfter .endOfText 4
  match next.mapM hexValue? with
  | some ds => do
    for _ in ds do skip
    return ds.foldl (fun n d => 16 * n + d) 0
  | none => failAfter .invalidEscape 4

/-- The character of an escape by code unit; units of a surrogate pair stand in two escapes. -/
def unicodeEscape : Reader Char := do
  let high ← hex4
  if 0xdc00 ≤ high ∧ high ≤ 0xdfff then failBefore .loneSurrogate
  if high < 0xd800 ∨ 0xdbff < high then return Char.ofNat high
  for c in ['\\', 'u'] do
    match ← peek with
    | none => fail .endOfText
    | some d => if d = c then skip else fail .unfinishedPair
  let low ← hex4
  if low < 0xdc00 ∨ 0xdfff < low then failBefore .loneSurrogate
  return Char.ofNat ((high - 0xd800) * 0x400 + (low - 0xdc00) + 0x10000)

/-- The character of an escape, its backslash already taken. -/
def escape : Reader Char := do
  match ← peek with
  | none => fail .endOfText
  | some 'u' => do skip; unicodeEscape
  | some c =>
    match [('\x22', '\x22'), ('\\', '\\'), ('/', '/'), ('b', '\x08'), ('f', '\x0c'), ('n', '\n'),
        ('r', '\r'), ('t', '\t')].lookup c with
    | some d => do skip; return d
    | none => fail .invalidEscape

/-- The characters up to the closing quote, which is taken too. -/
def textTail : List Char → List Char → Reader String
  | [], _ => fail .endOfText
  | _ :: fuel, done => do
    match ← peek with
    | none => fail .endOfText
    | some c =>
      if c = '\x22' then do skip; return String.ofList done.reverse
      else if c = '\\' then do skip; textTail fuel ((← escape) :: done)
      else if c.toNat < 32 then fail .controlCharacter
      else do skip; textTail fuel (c :: done)

/-- A text, its opening quote included. -/
def text : Reader String := do
  skip
  textTail (← get).rest []

/-- The items of a list up to the closing bracket, which is taken too. -/
def items (item : Reader Json) : List Char → List Json → Reader (List Json)
  | [], _ => fail .endOfList
  | _ :: fuel, done => do
    skipBlanks
    match ← peek with
    | none => fail .endOfList
    | some ']' => do skip; return done.reverse
    | some c =>
      if !done.isEmpty then
        if c ≠ ',' then fail .expectedListComma
        skip
        skipBlanks
        match ← peek with
        | none => fail .endOfValue
        | some c => if c = ']' then fail .trailingComma
      items item fuel ((← item) :: done)

/-- One member of an object, from its name on. -/
def field (item : Reader Json) : Reader (String × Json) := do
  let name ← text
  skipBlanks
  match ← peek with
  | none => fail .endOfObject
  | some c => if c ≠ ':' then fail .expectedColon
  skip
  return (name, ← item)

/-- The members of an object up to the closing brace, which is taken too. -/
def fields (item : Reader Json) :
    List Char → List (String × Json) → Reader (List (String × Json))
  | [], _ => fail .endOfObject
  | _ :: fuel, done => do
    skipBlanks
    match ← peek with
    | none => fail .endOfObject
    | some '\x7d' => do skip; return done.reverse
    | some c =>
      if done.isEmpty then
        if c ≠ '\x22' then fail .keyNotText
      else
        if c ≠ ',' then fail .expectedObjectComma
        skip
        skipBlanks
        match ← peek with
        | none => fail .endOfValue
        | some c =>
          if c = '\x7d' then fail .trailingComma
          if c ≠ '\x22' then fail .keyNotText
      fields item fuel ((← field item) :: done)

/-- A value, given how to read a list and an object from their opening characters on. -/
def valueWith (list object : Reader Json) : Reader Json := do
  skipBlanks
  match ← peek with
  | none => fail .endOfValue
  | some 'n' => do skip; literal ['u', 'l', 'l'] .null
  | some 't' => do skip; literal ['r', 'u', 'e'] (.bool true)
  | some 'f' => do skip; literal ['a', 'l', 's', 'e'] (.bool false)
  | some '-' => do skip; number true
  | some '\x22' => return .text (← text)
  | some '[' => list
  | some '\x7b' => object
  | some c => if c.isDigit then number false else fail .expectedValue

/-- A value in which lists and objects are nested at most `depth` deep. -/
def value : Nat → Reader Json
  | 0 => valueWith (fail .tooDeep) (fail .tooDeep)
  | depth + 1 =>
    valueWith
      (do skip; return .list (← items (value depth) (← get).rest []))
      (do skip; return .ofFields (← fields (value depth) (← get).rest []))

/-- The deepest nesting that a document may have. -/
def maxNesting : Nat := 127

def document : Reader Json := do
  let j ← value maxNesting
  skipBlanks
  if (← peek).isSome then fail .trailingCharacters
  return j

end Reader

def read (s : String) : Except ReadError Json :=
  (Reader.document.run (.start s)).map (·.1)

def parse : Parser := fun s => (read s).mapError ReadError.message

end ScriptTable.Json
