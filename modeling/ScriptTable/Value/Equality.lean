import ScriptTable.Value

/-!
Two ways to compare values. `equiv` is structural: numbers compare numerically (so NaN differs from
itself), tables partition by partition, their indexes included and identities ignored.
`sameIdentity` tells tables apart by identity and is `equiv` on everything else.
-/

namespace ScriptTable

mutual

def Value.equiv : Value → Value → Bool
  | .none, .none => true
  | .integer m, .integer n => m == n
  | .float x, .float y => x.numEq y
  | .boolean a, .boolean b => a == b
  | .text s, .text t => s == t
  | .table _ t, .table _ u => t.equiv u
  | _, _ => false

def Table.equiv : Table Value → Table Value → Bool
  | ⟨⟨intKeys, ⟨ints⟩⟩, ⟨floatKeys, floatIndex, ⟨floats⟩⟩, ⟨textKeys, textIndex, ⟨texts⟩⟩,
      ⟨boolKeys, boolIndex, ⟨bools⟩⟩, ⟨⟨tableKeys⟩, ⟨tables⟩⟩⟩, u =>
    (intKeys == u.integers.keys && Value.equivAll ints u.integers.values.toList) &&
    (floatKeys == u.floats.keys && floatIndex == u.floats.index &&
      Value.equivAll floats u.floats.values.toList) &&
    (textKeys == u.texts.keys && textIndex == u.texts.index &&
      Value.equivAll texts u.texts.values.toList) &&
    (boolKeys == u.booleans.keys && boolIndex == u.booleans.index &&
      Value.equivAll bools u.booleans.values.toList) &&
    (Value.equivAll tableKeys u.fallback.keys.toList &&
      Value.equivAll tables u.fallback.values.toList)

def Value.equivAll : List Value → List Value → Bool
  | [], [] => true
  | v :: vs, w :: ws => v.equiv w && Value.equivAll vs ws
  | _, _ => false

end

def Value.sameIdentity : Value → Value → Bool
  | .table i _, .table j _ => i == j
  | v, w => v.equiv w

namespace Fallback

def position? (p : Fallback Value) (k : Value) : Option Nat :=
  p.keys.findIdx? (·.sameIdentity k)

def insert (p : Fallback Value) (k v : Value) : Fallback Value :=
  match p.position? k with
  | some i => { p with values := p.values.setIfInBounds i v }
  | none => ⟨p.keys.push k, p.values.push v⟩

def get? (p : Fallback Value) (k : Value) : Option Value :=
  (p.position? k).bind (p.values[·]?)

def size (p : Fallback V) : Nat := p.keys.size
def isEmpty (p : Fallback V) : Bool := p.keys.isEmpty

def entries (p : Fallback V) : List (V × V) := p.keys.toList.zip p.values.toList

end Fallback

end ScriptTable
