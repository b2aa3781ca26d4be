import ScriptTable.Error
import ScriptTable.Table
import ScriptTable.Value.Printer

/-!
Traversal without a state of its own: the first key, and the key after a given one. A walk may
therefore stop and go on while the table changes. The partitions are visited in the order of their
kinds; fallback entries are not visited. Callers that know no keys walk over values instead.
-/

namespace ScriptTable.Table

def firstKeyOf (t : Table V) : Kind → Option Key
  | .integer => t.integers.firstKey?.map .integer
  | .float => t.floats.firstKey?.map .float
  | .text => t.texts.firstKey?.map .text
  | .boolean => t.booleans.firstKey?.map .boolean

def firstKeyAmong (t : Table V) (kinds : List Kind) : Option Key := kinds.findSome? t.firstKeyOf

def firstKey? (t : Table V) : Option Key := t.firstKeyAmong Kind.order

/-- The key after `k` in its own partition. -/
def successor (t : Table V) : Key → Successor Key
  | .integer n => (t.integers.successor n).map .integer
  | .float x => (t.floats.successor x).map .float
  | .text s => (t.texts.successor s).map .text
  | .boolean b => (t.booleans.successor b).map .boolean

/-- After the last key of a partition comes the first key of the next one that is not empty. -/
def nextKey (t : Table V) (k : Key) : Except BridgeError (Option Key) :=
  match t.successor k with
  | .absent => .error (.unknownKey k.render)
  | .next k' => .ok (some k')
  | .last => .ok (t.firstKeyAmong k.kind.following)

/-- The walk from a key on, with the value of each key, for at most `fuel` keys. -/
def pairsFrom (t : Table V) : Nat → Option Key → List (Key × V)
  | 0, _ | _, none => []
  | fuel + 1, some k =>
    match t.getKey? k with
    | none => []
    | some v => (k, v) :: t.pairsFrom fuel ((t.nextKey k).toOption.join)

/-- Every traversable entry, found by walking. A walk meets each entry once, so the size is enough
fuel. -/
def pairs (t : Table V) : List (Key × V) := t.pairsFrom t.size t.firstKey?

/-- The traversable entries, read off the partitions. -/
def entries (t : Table V) : List (Key × V) :=
  t.integers.entries.map (fun (k, v) => (.integer k, v)) ++
    t.floats.entries.map (fun (k, v) => (.float k, v)) ++
    t.texts.entries.map (fun (k, v) => (.text k, v)) ++
    t.booleans.entries.map (fun (k, v) => (.boolean k, v))

def rawGet? (t : Table Value) (k : Value) : Option Value := t.get? k

def rawSet (t : Table Value) (k v : Value) : Table Value := t.set k v

def initialKey? (t : Table V) : Option Value := t.firstKey?.map Key.toValue

def successorKey (t : Table V) (v : Value) : Except BridgeError (Option Value) :=
  match v.toKey? with
  | none => .error (.unknownKey v.render)
  | some k => (t.nextKey k).map (·.map Key.toValue)

/-- The keys that a walk over values meets, the error that ends it, if one does, and the key at which
it is given up, if it does not end by itself. -/
structure Walk where
  keys : List Value
  error : Option BridgeError
  givenUp : Option Value

/-- The walk from a key on, given up after `fuel` keys. -/
def walkFrom (t : Table V) : Nat → Option Value → Walk
  | _, none => ⟨[], none, none⟩
  | 0, some v => ⟨[], none, some v⟩
  | fuel + 1, some v =>
    match t.successorKey v with
    | .error e => ⟨[v], some e, none⟩
    | .ok next =>
      let w := t.walkFrom fuel next
      { w with keys := v :: w.keys }

def walk (t : Table V) : Walk := t.walkFrom t.size t.initialKey?

theorem successorKey_toValue (t : Table V) (k : Key) :
    t.successorKey k.toValue = (t.nextKey k).map (·.map Key.toValue) := by
  simp [successorKey]

end ScriptTable.Table
