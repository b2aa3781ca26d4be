import Std.Data.ExtHashMap
import ScriptTable.Partition.Successor

/-!
Keys in the order of their first insertion, with an index from each key to its position. The index
is an extensional map: two maps with the same entries are equal, so a partition is determined by
its keys and values.
-/

namespace ScriptTable

structure Ordered (K V : Type) [BEq K] [Hashable K] where
  keys : Array K
  index : Std.ExtHashMap K Nat
  values : Array V

namespace Ordered
/-- Texts and truth values are compared as such, and not through an order on them. -/
instance (priority := high) : EquivBEq String := instEquivBEqOfLawfulBEq
instance (priority := high) : LawfulHashable String := instLawfulHashableOfLawfulBEq
instance (priority := high) : EquivBEq Bool := instEquivBEqOfLawfulBEq
instance (priority := high) : LawfulHashable Bool := instLawfulHashableOfLawfulBEq

variable {K V : Type} [BEq K] [Hashable K] [EquivBEq K] [LawfulHashable K]

omit [EquivBEq K] [LawfulHashable K] in
def empty : Ordered K V := ⟨#[], ∅, #[]⟩

/-- A stored key keeps its position and takes the new value; a new one goes to the end. -/
def insert (p : Ordered K V) (k : K) (v : V) : Ordered K V :=
  match p.index[k]? with
  | some i => { p with values := p.values.setIfInBounds i v }
  | none =>
    let position := p.keys.size
    ⟨p.keys.push k, p.index.insert k position, p.values.push v⟩

def get? (p : Ordered K V) (k : K) : Option V := (p.index[k]?).bind (p.values[·]?)

def contains (p : Ordered K V) (k : K) : Bool := p.index.contains k

def successor (p : Ordered K V) (k : K) : Successor K :=
  match p.index[k]? with
  | some i => .after p.keys i
  | none => .absent

omit [EquivBEq K] [LawfulHashable K]

def firstKey? (p : Ordered K V) : Option K := p.keys[0]?
def size (p : Ordered K V) : Nat := p.keys.size
def isEmpty (p : Ordered K V) : Bool := p.keys.isEmpty

def entries (p : Ordered K V) : List (K × V) := p.keys.toList.zip p.values.toList

@[simp] theorem keys_empty : (empty : Ordered K V).keys = #[] := rfl
@[simp] theorem values_empty : (empty : Ordered K V).values = #[] := rfl
@[simp] theorem index_empty : (empty : Ordered K V).index = ∅ := rfl
@[simp] theorem entries_empty : (empty : Ordered K V).entries = [] := rfl
@[simp] theorem size_empty : (empty : Ordered K V).size = 0 := rfl

theorem isEmpty_iff_size_eq_zero (p : Ordered K V) : p.isEmpty = true ↔ p.size = 0 := by
  simp [isEmpty, size]

end Ordered

end ScriptTable
