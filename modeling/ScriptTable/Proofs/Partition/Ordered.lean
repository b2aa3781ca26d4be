import ScriptTable.Proofs.Partition.Index

/-!
The partitions in insertion order, for keys whose equality is identity. The index holds exactly the
stored keys, each with its position, and every operation is the plain one on the entries. The keys
determine the index, so a partition written anew from its entries is the same partition.
-/

namespace ScriptTable.Ordered

variable {K V : Type} [BEq K] [Hashable K] [LawfulBEq K]

structure WellFormed (p : Ordered K V) : Prop where
  aligned : p.keys.size = p.values.size
  indexed : ∀ (k : K) (i : Nat), p.index[k]? = some i ↔ p.keys[i]? = some k

/-- Keys that are equal are the same key. -/
theorem wellFormed_iff_indexed {p : Ordered K V} : p.WellFormed ↔ p.Indexed := by
  constructor
  · intro h
    exact ⟨h.aligned, fun k i => by simp [h.indexed]⟩
  · intro h
    exact ⟨h.aligned, fun k i => by simp [h.positions]⟩

theorem wellFormed_empty : (empty : Ordered K V).WellFormed := wellFormed_iff_indexed.mpr indexed_empty

namespace WellFormed

variable {p : Ordered K V} (wf : p.WellFormed)
include wf

theorem nodup : p.keys.toList.Nodup :=
  (wellFormed_iff_indexed.mp wf).distinct.imp fun h => by simpa using h

theorem index_eq_none_iff (k : K) : p.index[k]? = none ↔ k ∉ p.keys.toList := by
  rw [(wellFormed_iff_indexed.mp wf).index_eq_findIdx?, List.findIdx?_eq_none_iff]
  simp only [beq_eq_false_iff_ne]
  exact ⟨fun h hk => h k hk rfl, fun h j hj hjk => h (hjk ▸ hj)⟩

theorem entries_keys : p.entries.map Prod.fst = p.keys.toList :=
  (wellFormed_iff_indexed.mp wf).entries_keys

/-- What an insertion does: either it sets the value at the key's position, or it appends key and
value and records the new position. -/
theorem insert_cases (k : K) (v : V) :
    (∃ i, p.keys[i]? = some k ∧ p.insert k v = { p with values := p.values.setIfInBounds i v }) ∨
    (k ∉ p.keys.toList ∧
      p.insert k v = ⟨p.keys.push k, p.index.insert k p.keys.size, p.values.push v⟩) := by
  obtain ⟨i, hi, he⟩ | ⟨hnone, he⟩ := p.insert_eq k v
  · exact .inl ⟨i, (wf.indexed k i).mp hi, he⟩
  · exact .inr ⟨(wf.index_eq_none_iff k).mp hnone, he⟩

theorem insert (k : K) (v : V) : (p.insert k v).WellFormed :=
  wellFormed_iff_indexed.mpr ((wellFormed_iff_indexed.mp wf).insert k v)

/-- A new key goes to the end, and a stored one stays where it is. -/
theorem keys_insert (k : K) (v : V) :
    (p.insert k v).keys.toList =
      if p.keys.toList.contains k then p.keys.toList else p.keys.toList ++ [k] := by
  rw [(wellFormed_iff_indexed.mp wf).keys_insert, List.contains_eq_any_beq]
  simp only [BEq.comm (a := k)]

theorem inserted (k : K) (v : V) : Inserted k v p.entries (p.insert k v).entries := by
  have aligned : p.keys.toList.length = p.values.toList.length := by simpa using wf.aligned
  rcases wf.insert_cases k v with ⟨i, hi, he⟩ | ⟨fresh, he⟩
  · rw [he]
    simp only [entries, Array.toList_setIfInBounds]
    exact inserted_zip_set aligned wf.nodup v (by rwa [Array.getElem?_toList])
  · rw [he]
    simp only [entries, Array.toList_push]
    exact inserted_zip_concat aligned v fresh

/-- A lookup is a scan of the entries. -/
theorem get?_eq_lookup (k : K) : p.get? k = p.entries.lookup k := by
  cases h : p.index[k]? with
  | some i =>
    have hk := (wf.indexed k i).mp h
    rw [← Array.getElem?_toList] at hk
    rw [get?, h, entries, lookup_zip wf.aligned wf.nodup hk, Array.getElem?_toList]
    rfl
  | none =>
    have fresh := (wf.index_eq_none_iff k).mp h
    rw [get?, h, lookup_eq_none_of_not_mem (wf.entries_keys ▸ fresh)]
    rfl

theorem contains_iff (k : K) : p.contains k = true ↔ k ∈ p.keys.toList := by
  rw [contains, Std.ExtHashMap.contains_eq_isSome_getElem?]
  have h := wf.index_eq_none_iff k
  cases hk : p.index[k]? <;> simp_all

theorem successor_of_split {k : K} {pre post : List K} (h : p.keys.toList = pre ++ k :: post) :
    p.successor k = .ofRest post := by
  have hi : p.index[k]? = some pre.length := by
    rw [wf.indexed, ← Array.getElem?_toList, h]
    simp
  rw [successor, hi]
  exact Successor.after_of_split h

theorem successor_of_not_mem {k : K} (h : k ∉ p.keys.toList) : p.successor k = .absent := by
  rw [successor, (wf.index_eq_none_iff k).mpr h]

/-- The keys determine the index. -/
theorem index_eq {q : Ordered K V} (wf' : q.WellFormed) (keys : p.keys = q.keys) :
    p.index = q.index := by
  apply Std.ExtHashMap.ext_getElem?
  intro k
  apply Option.ext
  intro i
  rw [wf.indexed, wf'.indexed, keys]

theorem ext {q : Ordered K V} (wf' : q.WellFormed) (keys : p.keys.toList = q.keys.toList)
    (values : p.values.toList = q.values.toList) : p = q := by
  have hindex := wf.index_eq wf' (Array.ext' keys)
  obtain ⟨pk, pi, pv⟩ := p
  obtain ⟨qk, qi, qv⟩ := q
  obtain rfl : pk = qk := Array.ext' keys
  obtain rfl : pv = qv := Array.ext' values
  obtain rfl : pi = qi := hindex
  rfl

theorem entries_values : p.entries.map Prod.snd = p.values.toList :=
  List.map_snd_zip (by simp [wf.aligned])

theorem ext_entries {q : Ordered K V} (wf' : q.WellFormed) (entries : p.entries = q.entries) :
    p = q := by
  apply wf.ext wf'
  · rw [← wf.entries_keys, entries, wf'.entries_keys]
  · rw [← wf.entries_values, entries, wf'.entries_values]

theorem eq_empty (h : p.isEmpty = true) : p = Ordered.empty := by
  have hkeys : p.keys = #[] := Array.isEmpty_iff.mp h
  have hvalues : p.values = #[] := by
    rw [← Array.size_eq_zero_iff, ← wf.aligned, hkeys]
    rfl
  exact wf.ext wellFormed_empty (by simp [hkeys]) (by simp [hvalues])

/-- A key that is not stored goes to the end with its value. -/
theorem insert_fresh {k : K} (fresh : k ∉ p.keys.toList) (v : V) :
    (p.insert k v).keys = p.keys.push k ∧ (p.insert k v).values = p.values.push v := by
  rcases wf.insert_cases k v with ⟨i, hi, -⟩ | ⟨-, he⟩
  · rw [← Array.getElem?_toList] at hi
    exact absurd (List.mem_of_getElem? hi) fresh
  · rw [he]
    exact ⟨rfl, rfl⟩

end WellFormed

theorem wellFormed_ofEntries (es : List (K × V)) : (ofEntries es).WellFormed :=
  wellFormed_iff_indexed.mpr (indexed_ofEntries es)

/-- Entries with distinct keys are stored as they are. -/
theorem toList_ofEntries {es : List (K × V)} (nodup : (es.map Prod.fst).Nodup) :
    (ofEntries es).keys.toList = es.map Prod.fst ∧
      (ofEntries es).values.toList = es.map Prod.snd := by
  induction es using List.reverseRecOn with
  | nil => exact ⟨rfl, rfl⟩
  | append_singleton es e ih =>
    rw [List.map_append, List.map_singleton, ← List.concat_eq_append, List.nodup_concat] at nodup
    obtain ⟨hkeys, hvalues⟩ := ih nodup.2
    obtain ⟨hk, hv⟩ := (wellFormed_ofEntries es).insert_fresh (hkeys ▸ nodup.1) e.2
    rw [ofEntries_concat, hk, hv, Array.toList_push, Array.toList_push, hkeys, hvalues]
    simp

theorem entries_ofEntries {es : List (K × V)} (nodup : (es.map Prod.fst).Nodup) :
    (ofEntries es).entries = es := by
  obtain ⟨hkeys, hvalues⟩ := toList_ofEntries nodup
  rw [entries, hkeys, hvalues]
  exact (List.zip_of_prod rfl rfl).symm

/-- Nothing is stored that was not written. -/
theorem mem_of_mem_ofEntries {es : List (K × V)} {e : K × V} (h : e ∈ (ofEntries es).entries) :
    e ∈ es := by
  induction es using List.reverseRecOn with
  | nil => cases h
  | append_singleton es e' ih =>
    rw [ofEntries_concat] at h
    rw [List.mem_append, List.mem_singleton]
    rcases ((wellFormed_ofEntries es).inserted e'.1 e'.2).mem h with rfl | h
    · exact .inr rfl
    · exact .inl (ih h)

theorem WellFormed.ofEntries_entries {p : Ordered K V} (wf : p.WellFormed) :
    ofEntries p.entries = p := by
  have hkeys := wf.entries_keys
  obtain ⟨hk, hv⟩ := toList_ofEntries (hkeys ▸ wf.nodup)
  exact (wellFormed_ofEntries _).ext wf (hk.trans hkeys) (hv.trans wf.entries_values)

end ScriptTable.Ordered
