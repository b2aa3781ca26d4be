import ScriptTable.Table.Traversal
import ScriptTable.Proofs.Partition.Fallback

/-!
Tables whose five partitions are well formed, and what a write does to one. A write under a key is
one write to the entries in traversal order, since the kind of a key alone selects its partition.
-/

namespace ScriptTable

theorem Kind.order_eq (kd : Kind) : ∃ before, kd ∉ before ∧ kd ∉ kd.following ∧
    Kind.order = before ++ kd :: kd.following := by
  cases kd with
  | integer => exact ⟨[], by decide, by decide, rfl⟩
  | float => exact ⟨[.integer], by decide, by decide, rfl⟩
  | text => exact ⟨[.integer, .float], by decide, by decide, rfl⟩
  | boolean => exact ⟨[.integer, .float, .text], by decide, by decide, rfl⟩

namespace Table

variable {V : Type}

/-- The entries of one ordered partition. -/
def entriesOf (t : Table V) : Kind → List (Key × V)
  | .integer => t.integers.entries.map fun e => (.integer e.1, e.2)
  | .float => t.floats.entries.map fun e => (.float e.1, e.2)
  | .text => t.texts.entries.map fun e => (.text e.1, e.2)
  | .boolean => t.booleans.entries.map fun e => (.boolean e.1, e.2)

def keysOf (t : Table V) : Kind → List Key
  | .integer => t.integers.keys.toList.map .integer
  | .float => t.floats.keys.toList.map .float
  | .text => t.texts.keys.toList.map .text
  | .boolean => t.booleans.keys.toList.map .boolean

/-- The keys in traversal order, read off the partitions. -/
def keys (t : Table V) : List Key := Kind.order.flatMap t.keysOf

theorem entries_eq (t : Table V) : t.entries = Kind.order.flatMap t.entriesOf := by
  simp only [entries, Kind.order, List.flatMap_cons, List.flatMap_nil, List.append_nil,
    List.append_assoc]
  rfl

theorem kind_of_mem_entriesOf {t : Table V} {kd : Kind} {e : Key × V} (h : e ∈ t.entriesOf kd) :
    e.1.kind = kd := by
  cases kd <;> obtain ⟨e, -, rfl⟩ := List.mem_map.mp h <;> rfl

theorem kind_of_mem_keysOf {t : Table V} {kd : Kind} {k : Key} (h : k ∈ t.keysOf kd) :
    k.kind = kd := by
  cases kd <;> obtain ⟨e, -, rfl⟩ := List.mem_map.mp h <;> rfl

theorem not_mem_entriesOf {t : Table V} {k : Key} {kinds : List Kind} (h : k.kind ∉ kinds) :
    k ∉ (kinds.flatMap t.entriesOf).map Prod.fst := by
  intro hmem
  obtain ⟨e, he, rfl⟩ := List.mem_map.mp hmem
  obtain ⟨kd, hkd, he⟩ := List.mem_flatMap.mp he
  exact h (kind_of_mem_entriesOf he ▸ hkd)

theorem mem_keys_iff {t : Table V} {k : Key} : k ∈ t.keys ↔ k ∈ t.keysOf k.kind := by
  rw [keys, List.mem_flatMap]
  constructor
  · rintro ⟨kd, -, hk⟩
    rwa [kind_of_mem_keysOf hk]
  · intro h
    exact ⟨k.kind, by cases k.kind <;> decide, h⟩

theorem firstKeyOf_eq (t : Table V) (kd : Kind) : t.firstKeyOf kd = (t.keysOf kd).head? := by
  cases kd with
  | integer => rw [firstKeyOf, keysOf, List.head?_map, Sorted.firstKey?_eq]
  | float => rw [firstKeyOf, keysOf, List.head?_map, Ordered.firstKey?_eq]
  | text => rw [firstKeyOf, keysOf, List.head?_map, Ordered.firstKey?_eq]
  | boolean => rw [firstKeyOf, keysOf, List.head?_map, Ordered.firstKey?_eq]

theorem firstKeyAmong_eq (t : Table V) (kinds : List Kind) :
    t.firstKeyAmong kinds = (kinds.flatMap t.keysOf).head? := by
  rw [firstKeyAmong, List.head?_flatMap]
  congr 1
  funext kd
  exact t.firstKeyOf_eq kd

theorem firstKey?_eq (t : Table V) : t.firstKey? = t.keys.head? := t.firstKeyAmong_eq Kind.order

theorem sizeOf_eq (t : Table V) (kd : Kind) : t.sizeOf kd = (t.keysOf kd).length := by
  cases kd <;> simp [sizeOf, keysOf, Sorted.size, Ordered.size]

theorem size_eq (t : Table V) : t.size = t.keys.length := by
  simp only [size, keys, sizeOf_eq, Kind.order, List.foldl_cons, List.foldl_nil, List.flatMap_cons,
    List.flatMap_nil, List.length_append, List.length_nil]
  omega

structure WellFormed (t : Table Value) : Prop where
  integers : t.integers.WellFormed
  floats : t.floats.WellFormed
  texts : t.texts.WellFormed
  booleans : t.booleans.WellFormed
  fallback : t.fallback.WellFormed

theorem wellFormed_empty : (empty : Table Value).WellFormed :=
  ⟨Sorted.wellFormed_empty, Ordered.wellFormed_empty, Ordered.wellFormed_empty,
    Ordered.wellFormed_empty, Fallback.wellFormed_empty⟩

theorem entriesOf_setKey_of_ne (t : Table Value) {k : Key} {kd : Kind} (v : Value)
    (h : kd ≠ k.kind) : (t.setKey k v).entriesOf kd = t.entriesOf kd := by
  cases k <;> cases kd <;> first | rfl | exact absurd rfl h

theorem entriesOf_set_of_toKey?_eq_none (t : Table Value) {k : Value} (v : Value)
    (h : k.toKey? = none) (kd : Kind) : (t.set k v).entriesOf kd = t.entriesOf kd := by
  cases k <;> cases h <;> cases kd <;> rfl

@[simp] theorem fallback_setKey (t : Table Value) (k : Key) (v : Value) :
    (t.setKey k v).fallback = t.fallback := by
  cases k <;> rfl

namespace WellFormed

variable {t : Table Value} (wf : t.WellFormed)
include wf

theorem setKey (k : Key) (v : Value) : (t.setKey k v).WellFormed := by
  cases k with
  | integer n => exact { wf with integers := wf.integers.insert n v }
  | float x => exact { wf with floats := wf.floats.insert x v }
  | text s => exact { wf with texts := wf.texts.insert s v }
  | boolean b => exact { wf with booleans := wf.booleans.insert b v }

theorem set (k v : Value) : (t.set k v).WellFormed := by
  cases k with
  | none => exact wf
  | table i u => exact { wf with fallback := wf.fallback.insert i u v }
  | integer n => exact wf.setKey (.integer n) v
  | float x => exact wf.setKey (.float (.ofDouble x)) v
  | text s => exact wf.setKey (.text s) v
  | boolean b => exact wf.setKey (.boolean b) v

theorem inserted_entriesOf (k : Key) (v : Value) :
    Inserted k v (t.entriesOf k.kind) ((t.setKey k v).entriesOf k.kind) := by
  cases k with
  | integer n => exact (wf.integers.inserted n v).map_keys (fun a b h => Key.integer.inj h)
  | float x => exact (wf.floats.inserted x v).map_keys (fun a b h => Key.float.inj h)
  | text s => exact (wf.texts.inserted s v).map_keys (fun a b h => Key.text.inj h)
  | boolean b => exact (wf.booleans.inserted b v).map_keys (fun a b h => Key.boolean.inj h)

/-- The step: a write under a key is one write to the entries in traversal order. -/
theorem inserted (k : Key) (v : Value) : Inserted k v t.entries (t.setKey k v).entries := by
  obtain ⟨before, hbefore, hafter, horder⟩ := k.kind.order_eq
  have frame : ∀ kinds : List Kind, k.kind ∉ kinds →
      kinds.flatMap (t.setKey k v).entriesOf = kinds.flatMap t.entriesOf := by
    intro kinds hk
    apply List.flatMap_congr
    intro kd hkd
    exact t.entriesOf_setKey_of_ne v (fun h => hk (h ▸ hkd))
  rw [entries_eq, entries_eq, horder, List.flatMap_append, List.flatMap_append, List.flatMap_cons,
    List.flatMap_cons, frame before hbefore, frame _ hafter]
  exact (wf.inserted_entriesOf k v).append (not_mem_entriesOf hbefore)
    (not_mem_entriesOf hafter)

theorem entriesOf_keys (kd : Kind) : (t.entriesOf kd).map Prod.fst = t.keysOf kd := by
  cases kd with
  | integer => rw [entriesOf, keysOf, ← wf.integers.entries_keys, List.map_map, List.map_map]; rfl
  | float => rw [entriesOf, keysOf, ← wf.floats.entries_keys, List.map_map, List.map_map]; rfl
  | text => rw [entriesOf, keysOf, ← wf.texts.entries_keys, List.map_map, List.map_map]; rfl
  | boolean => rw [entriesOf, keysOf, ← wf.booleans.entries_keys, List.map_map, List.map_map]; rfl

theorem entries_keys : t.entries.map Prod.fst = t.keys := by
  rw [entries_eq, keys, List.map_flatMap]
  exact List.flatMap_congr (fun kd _ => wf.entriesOf_keys kd)

theorem nodup_keysOf (kd : Kind) : (t.keysOf kd).Nodup := by
  cases kd with
  | integer => exact wf.integers.nodup.map (fun a b h => Key.integer.inj h)
  | float => exact wf.floats.nodup.map (fun a b h => Key.float.inj h)
  | text => exact wf.texts.nodup.map (fun a b h => Key.text.inj h)
  | boolean => exact wf.booleans.nodup.map (fun a b h => Key.boolean.inj h)

theorem nodup_keys : t.keys.Nodup := by
  rw [keys, List.nodup_flatMap]
  refine ⟨fun kd _ => wf.nodup_keysOf kd, ?_⟩
  have distinct : Kind.order.Pairwise (· ≠ ·) := by decide
  apply distinct.imp
  intro a b hab k ha hb
  exact hab ((kind_of_mem_keysOf ha).symm.trans (kind_of_mem_keysOf hb))

theorem getKey?_eq_lookup (k : Key) : t.getKey? k = t.entries.lookup k := by
  obtain ⟨before, hbefore, hafter, horder⟩ := k.kind.order_eq
  have own : t.getKey? k = (t.entriesOf k.kind).lookup k := by
    cases k with
    | integer n =>
      exact (wf.integers.get?_eq_lookup n).trans
        (lookup_map_keys (fun a b h => Key.integer.inj h) _ n).symm
    | float x =>
      exact (wf.floats.get?_eq_lookup x).trans
        (lookup_map_keys (fun a b h => Key.float.inj h) _ x).symm
    | text s =>
      exact (wf.texts.get?_eq_lookup s).trans
        (lookup_map_keys (fun a b h => Key.text.inj h) _ s).symm
    | boolean b =>
      exact (wf.booleans.get?_eq_lookup b).trans
        (lookup_map_keys (fun a b h => Key.boolean.inj h) _ b).symm
  rw [own, entries_eq, horder, List.flatMap_append, List.flatMap_cons, List.lookup_append,
    List.lookup_append, lookup_eq_none_of_not_mem (not_mem_entriesOf hbefore),
    lookup_eq_none_of_not_mem (not_mem_entriesOf hafter)]
  simp

theorem getKey?_isSome_iff (k : Key) : (t.getKey? k).isSome = true ↔ k ∈ t.keys := by
  rw [wf.getKey?_eq_lookup, lookup_isSome_iff_mem_keys, wf.entries_keys]

theorem containsKey_iff (k : Key) : t.containsKey k = true ↔ k ∈ t.keys := by
  rw [mem_keys_iff]
  cases k with
  | integer n => simp [containsKey, keysOf, Key.kind, wf.integers.contains_iff]
  | float x => simp [containsKey, keysOf, Key.kind, wf.floats.contains_iff]
  | text s => simp [containsKey, keysOf, Key.kind, wf.texts.contains_iff]
  | boolean b => simp [containsKey, keysOf, Key.kind, wf.booleans.contains_iff]

theorem getKey?_setKey (k : Key) (v : Value) (j : Key) :
    (t.setKey k v).getKey? j = if j == k then some v else t.getKey? j := by
  rw [(wf.setKey k v).getKey?_eq_lookup, wf.getKey?_eq_lookup]
  exact (wf.inserted k v).lookup j

theorem keys_sublist_setKey (k : Key) (v : Value) : t.keys.Sublist (t.setKey k v).keys := by
  rw [← wf.entries_keys, ← (wf.setKey k v).entries_keys]
  exact (wf.inserted k v).keys_sublist

theorem mem_keys_setKey (k : Key) (v : Value) (j : Key) :
    j ∈ (t.setKey k v).keys ↔ j = k ∨ j ∈ t.keys := by
  rw [← wf.entries_keys, ← (wf.setKey k v).entries_keys]
  exact (wf.inserted k v).mem_keys j

end WellFormed

theorem ofPairs_concat (es : List (Value × Value)) (e : Value × Value) :
    ofPairs (es ++ [e]) = (ofPairs es).set e.1 e.2 := by
  simp [ofPairs]

theorem wellFormed_ofPairs (es : List (Value × Value)) : (ofPairs es).WellFormed := by
  induction es using List.reverseRecOn with
  | nil => exact wellFormed_empty
  | append_singleton es e ih =>
    rw [ofPairs_concat]
    exact ih.set e.1 e.2

end Table

end ScriptTable
