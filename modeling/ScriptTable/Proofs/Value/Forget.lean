import Mathlib.Data.List.InsertIdx
import ScriptTable.Table
import ScriptTable.Proofs.Partition.Ordered

/-!
Values up to identities. Forgetting gives every table in a value the same identity; two values that
are then equal have the same keys in the same order and the same primitives, floats bit for bit, at
every depth. Writes under the keys of the ordered partitions do not see the difference.
-/

namespace ScriptTable

variable {K V W : Type}

/-- The same keys with images of the values. -/
def Sorted.map (f : V → W) (p : Sorted V) : Sorted W := ⟨p.keys, p.values.map f⟩

def Ordered.map [BEq K] [Hashable K] (f : V → W) (p : Ordered K V) : Ordered K W :=
  ⟨p.keys, p.index, p.values.map f⟩

/-- The keys of the fallback partition are values too. -/
def Fallback.map (f : V → W) (p : Fallback V) : Fallback W := ⟨p.keys.map f, p.values.map f⟩

def Table.map (f : V → W) (t : Table V) : Table W :=
  ⟨t.integers.map f, t.floats.map f, t.texts.map f, t.booleans.map f, t.fallback.map f⟩

theorem Sorted.map_insert (f : V → W) (p : Sorted V) (k : Int) (v : V) :
    (p.insert k v).map f = (p.map f).insert k (f v) := by
  have hsearch : (p.map f).search k = p.search k := rfl
  rw [insert, insert, hsearch]
  cases p.search k with
  | stored i => simp [map]
  | vacant i =>
    have hvalues : (p.values.insertIdxIfInBounds i v).map f =
        (p.values.map f).insertIdxIfInBounds i (f v) := by
      apply Array.ext'
      simp [toList_insertIdxIfInBounds, List.map_insertIdx]
    simp [map, hvalues]

theorem Ordered.map_insert [BEq K] [Hashable K] [LawfulBEq K] (f : V → W) (p : Ordered K V) (k : K)
    (v : V) : (p.insert k v).map f = (p.map f).insert k (f v) := by
  have hindex : (p.map f).index = p.index := rfl
  rw [insert, insert, hindex]
  cases p.index[k]? <;> simp [map]

theorem Ordered.entries_map [BEq K] [Hashable K] (f : V → W) (p : Ordered K V) :
    (p.map f).entries = p.entries.map fun e => (e.1, f e.2) := by
  simp [entries, map, List.zip_map_right]

theorem Sorted.entries_map (f : V → W) (p : Sorted V) :
    (p.map f).entries = p.entries.map fun e => (e.1, f e.2) := by
  simp [entries, map, List.zip_map_right]

theorem Sorted.get?_map (f : V → W) (p : Sorted V) (k : Int) :
    (p.map f).get? k = (p.get? k).map f := by
  have hsearch : (p.map f).search k = p.search k := rfl
  rw [get?, get?, hsearch]
  cases p.search k <;> simp [map]

theorem Ordered.get?_map [BEq K] [Hashable K] [LawfulBEq K] (f : V → W) (p : Ordered K V) (k : K) :
    (p.map f).get? k = (p.get? k).map f := by
  have hindex : (p.map f).index = p.index := rfl
  rw [get?, get?, hindex]
  cases p.index[k]? <;> simp [map]

/-- Only the number of values matters to a well-formed partition. -/
theorem Sorted.wellFormed_map_iff {p : Sorted V} {f : V → W} :
    (p.map f).WellFormed ↔ p.WellFormed := by
  have haligned : (p.map f).keys.size = (p.map f).values.size ↔ p.keys.size = p.values.size := by
    simp [map]
  exact ⟨fun wf => ⟨haligned.mp wf.aligned, wf.ascending⟩,
    fun wf => ⟨haligned.mpr wf.aligned, wf.ascending⟩⟩

theorem Ordered.wellFormed_map_iff [BEq K] [Hashable K] [LawfulBEq K] {p : Ordered K V}
    {f : V → W} : (p.map f).WellFormed ↔ p.WellFormed := by
  have haligned : (p.map f).keys.size = (p.map f).values.size ↔ p.keys.size = p.values.size := by
    simp [map]
  exact ⟨fun wf => ⟨haligned.mp wf.aligned, wf.indexed⟩,
    fun wf => ⟨haligned.mpr wf.aligned, wf.indexed⟩⟩

theorem Table.map_setKey (f : V → W) (t : Table V) (k : Key) (v : V) :
    (t.setKey k v).map f = (t.map f).setKey k (f v) := by
  cases k <;> simp [setKey, map, Sorted.map_insert, Ordered.map_insert]

theorem Table.getKey?_map (f : V → W) (t : Table V) (k : Key) :
    (t.map f).getKey? k = (t.getKey? k).map f := by
  cases k with
  | integer n => exact t.integers.get?_map f n
  | float x => exact t.floats.get?_map f x
  | text s => exact t.texts.get?_map f s
  | boolean b => exact t.booleans.get?_map f b

theorem Table.sizeOf_map (f : V → W) (t : Table V) (kd : Kind) :
    (t.map f).sizeOf kd = t.sizeOf kd := by
  cases kd <;> rfl

theorem Table.size_map (f : V → W) (t : Table V) : (t.map f).size = t.size := rfl

theorem Table.map_empty (f : V → W) : (empty : Table V).map f = empty := by
  simp [map, empty, Sorted.map, Sorted.empty, Ordered.map, Ordered.empty, Fallback.map]

mutual

def Value.forget : Value → Value
  | .table _ t => .table 0 t.forget
  | v => v

def Table.forget : Table Value → Table Value
  | ⟨⟨intKeys, ⟨ints⟩⟩, ⟨floatKeys, floatIndex, ⟨floats⟩⟩, ⟨textKeys, textIndex, ⟨texts⟩⟩,
      ⟨boolKeys, boolIndex, ⟨bools⟩⟩, ⟨⟨tableKeys⟩, ⟨tables⟩⟩⟩ =>
    ⟨⟨intKeys, ⟨Value.forgetAll ints⟩⟩, ⟨floatKeys, floatIndex, ⟨Value.forgetAll floats⟩⟩,
      ⟨textKeys, textIndex, ⟨Value.forgetAll texts⟩⟩, ⟨boolKeys, boolIndex, ⟨Value.forgetAll bools⟩⟩,
      ⟨⟨Value.forgetAll tableKeys⟩, ⟨Value.forgetAll tables⟩⟩⟩

def Value.forgetAll : List Value → List Value
  | [] => []
  | v :: vs => v.forget :: Value.forgetAll vs

end

theorem Value.forgetAll_eq_map (vs : List Value) : Value.forgetAll vs = vs.map Value.forget := by
  induction vs with
  | nil => rfl
  | cons v vs ih => rw [Value.forgetAll, ih, List.map_cons]

theorem Table.forget_eq_map (t : Table Value) : t.forget = t.map Value.forget := by
  obtain ⟨⟨intKeys, ⟨ints⟩⟩, ⟨floatKeys, floatIndex, ⟨floats⟩⟩, ⟨textKeys, textIndex, ⟨texts⟩⟩,
    ⟨boolKeys, boolIndex, ⟨bools⟩⟩, ⟨⟨tableKeys⟩, ⟨tables⟩⟩⟩ := t
  simp [Table.forget, map, Sorted.map, Ordered.map, Fallback.map, Value.forgetAll_eq_map]

@[simp] theorem Table.forget_empty : (empty : Table Value).forget = empty := by
  rw [forget_eq_map, map_empty]

theorem Table.forget_setKey (t : Table Value) (k : Key) (v : Value) :
    (t.setKey k v).forget = t.forget.setKey k v.forget := by
  rw [forget_eq_map, map_setKey, ← forget_eq_map]

/-- Only tables as keys are told apart by identity. -/
theorem Table.forget_set (t : Table Value) {k : Value} (v : Value) (h : k.isTable = false) :
    (t.set k v).forget = t.forget.set k v.forget := by
  cases k with
  | none => rfl
  | table i u => cases h
  | integer n => exact t.forget_setKey (.integer n) v
  | float x => exact t.forget_setKey (.float (.ofDouble x)) v
  | text s => exact t.forget_setKey (.text s) v
  | boolean b => exact t.forget_setKey (.boolean b) v

end ScriptTable
