import ScriptTable.Value.Equality

/-!
Reading and writing a table. Only the kind of a key decides which partition is read or written;
`none` as a key is ignored by `set` and found by no lookup.
-/

namespace ScriptTable.Table

def setKey (t : Table V) (k : Key) (v : V) : Table V :=
  match k with
  | .integer n => { t with integers := t.integers.insert n v }
  | .float x => { t with floats := t.floats.insert x v }
  | .text s => { t with texts := t.texts.insert s v }
  | .boolean b => { t with booleans := t.booleans.insert b v }

def set (t : Table Value) (k v : Value) : Table Value :=
  match k with
  | .none => t
  | .table _ _ => { t with fallback := t.fallback.insert k v }
  | _ => match k.toKey? with
    | some key => t.setKey key v
    | none => t

def getKey? (t : Table V) : Key → Option V
  | .integer n => t.integers.get? n
  | .float x => t.floats.get? x
  | .text s => t.texts.get? s
  | .boolean b => t.booleans.get? b

def get? (t : Table Value) (k : Value) : Option Value :=
  match k with
  | .none => none
  | .integer n => t.integers.get? n
  | .float x => t.floats.get? (.ofDouble x)
  | .text s => t.texts.get? s
  | .boolean b => t.booleans.get? b
  | .table _ _ => t.fallback.get? k

def getText? (t : Table V) (name : String) : Option V := t.texts.get? name

def containsKey (t : Table V) : Key → Bool
  | .integer n => t.integers.contains n
  | .float x => t.floats.contains x
  | .text s => t.texts.contains s
  | .boolean b => t.booleans.contains b

/-- The positional view: the values under whole-number keys, ascending by key. -/
def asList (t : Table V) : List V := t.integers.values.toList

def integerEntries (t : Table V) : List (Int × V) := t.integers.entries
def textEntries (t : Table V) : List (String × V) := t.texts.entries

def sizeOf (t : Table V) : Kind → Nat
  | .integer => t.integers.size
  | .float => t.floats.size
  | .text => t.texts.size
  | .boolean => t.booleans.size

/-- The number of entries that a traversal meets. -/
def size (t : Table V) : Nat := Kind.order.foldl (fun n kd => n + t.sizeOf kd) 0

def isEmpty (t : Table V) : Bool := t.size == 0 && t.fallback.isEmpty

/-- The values under the keys 1, 2, 3 and so on. -/
def ofList (vs : List V) : Table V := { empty with integers := Sorted.empty.insertFrom 1 vs }

/-- Every pair written in turn. -/
def ofPairs (entries : List (Value × Value)) : Table Value :=
  entries.foldl (fun t (k, v) => t.set k v) empty

@[simp] theorem set_none (t : Table Value) (v : Value) : t.set .none v = t := rfl

theorem set_toValue (t : Table Value) (k : Key) (v : Value) : t.set k.toValue v = t.setKey k v := by
  cases k <;> simp [set, Key.toValue, Value.toKey?, Key.ofDouble]

@[simp] theorem get?_none (t : Table Value) : t.get? .none = none := rfl

theorem get?_toValue (t : Table Value) (k : Key) : t.get? k.toValue = t.getKey? k := by
  cases k <;> simp [get?, getKey?, Key.toValue]

end ScriptTable.Table
