import ScriptTable.Proofs.Table.SameEntries
import ScriptTable.Proofs.Table.WriteOrder

/-!
What determines a table, and the places that its keys have. A table is what its lookups find together
with the order of the keys in each partition; whole numbers have an order of their own, so theirs is
no choice. A write adds to the order of its own partition, at the end, and only where its key is new.
-/

namespace ScriptTable

/-- With keys that do not repeat, the lookups determine the values. -/
theorem eq_of_lookup {K V : Type} [BEq K] [LawfulBEq K] {l m : List (K × V)}
    (keys : l.map Prod.fst = m.map Prod.fst) (nodup : (l.map Prod.fst).Nodup)
    (lookups : ∀ k ∈ l.map Prod.fst, l.lookup k = m.lookup k) : l = m := by
  induction l generalizing m with
  | nil => exact (List.map_eq_nil_iff.mp keys.symm).symm
  | cons e l ih =>
    cases m with
    | nil => cases keys
    | cons e' m =>
      obtain ⟨k, v⟩ := e
      obtain ⟨k', w⟩ := e'
      simp only [List.map_cons, List.cons.injEq] at keys
      obtain ⟨rfl, hkeys⟩ := keys
      rw [List.map_cons, List.nodup_cons] at nodup
      have hvalue : v = w := by simpa using lookups k (by simp)
      have hrest : l = m := by
        refine ih hkeys nodup.2 fun j hj => ?_
        have hne : (j == k) = false := by
          rw [beq_eq_false_iff_ne]
          rintro rfl
          exact nodup.1 hj
        simpa [List.lookup_cons, hne] using lookups j (by simp [hj])
      rw [hvalue, hrest]

theorem Ordered.WellFormed.entries_insert_fresh {K V : Type} [BEq K] [Hashable K] [LawfulBEq K]
    {p : Ordered K V} (wf : p.WellFormed) {k : K} (fresh : k ∉ p.keys.toList) (v : V) :
    (p.insert k v).entries = p.entries ++ [(k, v)] := by
  obtain ⟨hkeys, hvalues⟩ := wf.insert_fresh fresh v
  rw [entries, hkeys, hvalues, Array.toList_push, Array.toList_push,
    List.zip_append (by simp [wf.aligned])]
  rfl

theorem Fallback.WellFormed.ext_lookups {p q : Fallback Value} (wf : p.WellFormed)
    (wf' : q.WellFormed) (keys : p.keys = q.keys)
    (lookups : ∀ i t, p.get? (.table i t) = q.get? (.table i t)) : p = q := by
  have hbyIdentity : p.byIdentity = q.byIdentity := by
    apply eq_of_lookup
    · rw [wf.byIdentity_keys, wf'.byIdentity_keys, identities, keys, identities]
    · rw [wf.byIdentity_keys]
      exact wf.distinct
    · intro i _
      rw [← wf.get?_eq_lookup i .empty, ← wf'.get?_eq_lookup i .empty, lookups]
  have hvalues := congrArg (List.map Prod.snd) hbyIdentity
  rw [byIdentity, byIdentity, List.map_snd_zip wf.aligned_identities.ge,
    List.map_snd_zip wf'.aligned_identities.ge] at hvalues
  obtain ⟨pk, pv⟩ := p
  obtain ⟨qk, qv⟩ := q
  obtain rfl : pk = qk := keys
  obtain rfl : pv = qv := Array.ext' hvalues
  rfl

theorem Key.toValue_injective : Function.Injective Key.toValue := by
  intro j k h
  simpa using congrArg Value.toKey? h

/-- Where a table keeps the entry of a key. -/
inductive Place where
  | ordered (kd : Kind)
  | fallback
  deriving DecidableEq

namespace Value

def place? : Value → Option Place
  | .none => Option.none
  | .integer _ => some (.ordered .integer)
  | .float _ => some (.ordered .float)
  | .text _ => some (.ordered .text)
  | .boolean _ => some (.ordered .boolean)
  | .table _ _ => some .fallback

/-- A key as it is stored. -/
def stored : Value → Value
  | .float x => .float x.canonical
  | v => v

theorem place?_of_toKey? {v : Value} {k : Key} (h : v.toKey? = some k) :
    v.place? = some (.ordered k.kind) ∧ v.stored = k.toValue := by
  cases v <;> cases h <;> exact ⟨rfl, rfl⟩

end Value

namespace Table

def keysIn (t : Table Value) : Place → List Value
  | .ordered kd => (t.keysOf kd).map Key.toValue
  | .fallback => t.fallback.keys.toList

def entriesIn (t : Table Value) : Place → List (Value × Value)
  | .ordered kd => (t.entriesOf kd).map fun e => (e.1.toValue, e.2)
  | .fallback => t.fallback.entries

/-- The key that a write adds at the end of a place, if it adds one. -/
def added (t : Table Value) (k : Value) (p : Place) : List Value :=
  if k.place? = some p ∧ t.get? k = none then [k.stored] else []

namespace WellFormed

variable {t u : Table Value} (wf : t.WellFormed)
include wf

theorem mem_integers_iff (n : Int) :
    n ∈ t.integers.keys.toList ↔ (t.get? (.integer n)).isSome = true := by
  rw [← Key.toValue, get?_toValue, wf.getKey?_isSome_iff, mem_keys_iff]
  simp [keysOf, Key.kind]

/-- A table is determined by its lookups and the order of its keys. -/
theorem ext_lookups (wf' : u.WellFormed)
    (keys : ∀ p, p ≠ .ordered .integer → t.keysIn p = u.keysIn p)
    (lookups : ∀ k, t.get? k = u.get? k) : t = u := by
  have hintegers : t.integers.keys.toList = u.integers.keys.toList := by
    apply wf.integers.ascending.eq_of_mem_iff wf'.integers.ascending
    intro n
    rw [wf.mem_integers_iff, wf'.mem_integers_iff, lookups]
  have hkeysOf : ∀ kd, t.keysOf kd = u.keysOf kd := by
    intro kd
    by_cases hkd : kd = .integer
    · rw [hkd, keysOf, keysOf, hintegers]
    · exact List.map_injective_iff.mpr Key.toValue_injective (keys (.ordered kd) (by simpa using hkd))
  have hentries : t.entries = u.entries := by
    apply eq_of_lookup
    · rw [wf.entries_keys, wf'.entries_keys]
      exact List.flatMap_congr fun kd _ => hkeysOf kd
    · exact wf.entries_keys ▸ wf.nodup_keys
    · intro k _
      rw [← wf.getKey?_eq_lookup, ← wf'.getKey?_eq_lookup, ← get?_toValue, ← get?_toValue, lookups]
  have hfallback : t.fallback = u.fallback := by
    apply wf.fallback.ext_lookups wf'.fallback (Array.ext' (keys .fallback (by decide)))
    exact fun i s => lookups (.table i s)
  apply wf.ext_entriesOf wf' _ hfallback
  intro kd
  rw [entriesOf_eq_filter, entriesOf_eq_filter, hentries]

/-- A key is absent when it is not among the keys of its place. -/
theorem get?_eq_none_iff {k : Value} {key : Key} (h : k.toKey? = some key) :
    t.get? k = none ↔ key ∉ t.keysOf key.kind := by
  rw [get?_of_toKey? _ h, ← Option.not_isSome_iff_eq_none, wf.getKey?_isSome_iff, mem_keys_iff]

theorem get?_table_eq_none_iff (i : Identity) (w : Table Value) :
    t.get? (.table i w) = none ↔ i ∉ t.fallback.identities := by
  rw [get?, wf.fallback.get?_eq_lookup, ← Option.not_isSome_iff_eq_none, lookup_isSome_iff_mem_keys,
    wf.fallback.byIdentity_keys]

theorem entriesOf_setKey_of_new {k : Key} (hk : k.kind ≠ .integer) (absent : k ∉ t.keysOf k.kind)
    (v : Value) : (t.setKey k v).entriesOf k.kind = t.entriesOf k.kind ++ [(k, v)] := by
  cases k with
  | integer n => exact absurd rfl hk
  | float x =>
    have fresh : x ∉ t.floats.keys.toList := fun h => absent (List.mem_map_of_mem h)
    simp [Key.kind, Table.setKey, entriesOf, wf.floats.entries_insert_fresh fresh]
  | text s =>
    have fresh : s ∉ t.texts.keys.toList := fun h => absent (List.mem_map_of_mem h)
    simp [Key.kind, Table.setKey, entriesOf, wf.texts.entries_insert_fresh fresh]
  | boolean b =>
    have fresh : b ∉ t.booleans.keys.toList := fun h => absent (List.mem_map_of_mem h)
    simp [Key.kind, Table.setKey, entriesOf, wf.booleans.entries_insert_fresh fresh]

/-- The step: outside the whole numbers, a write adds its key at the end if it is new. -/
theorem keysIn_set {p : Place} (hp : p ≠ .ordered .integer) (k v : Value) :
    (t.set k v).keysIn p = t.keysIn p ++ t.added k p := by
  rcases k.key_cases with rfl | ⟨i, w, rfl⟩ | ⟨key, hkey⟩
  · simp [added, Value.place?]
  · cases p with
    | ordered kd =>
      have hkeys : (t.set (.table i w) v).keysOf kd = t.keysOf kd :=
        t.keysOf_set_of_toKey?_eq_none v rfl kd
      simp [added, Value.place?, keysIn, hkeys]
    | fallback =>
      rcases wf.fallback.insert_cases i w v with ⟨n, hn, he⟩ | ⟨fresh, he⟩
      · have stored : ¬t.get? (.table i w) = none := by
          rw [wf.get?_table_eq_none_iff, not_not]
          exact List.mem_of_getElem? hn
        simp [added, keysIn, set_table, he, stored]
      · have absent := (wf.get?_table_eq_none_iff i w).mpr fresh
        simp [added, keysIn, set_table, he, absent, Value.place?, Value.stored]
  · obtain ⟨hplace, hstored⟩ := Value.place?_of_toKey? hkey
    rw [set_of_toKey? _ hkey]
    cases p with
    | fallback => simp [added, hplace, keysIn]
    | ordered kd =>
      by_cases hkind : key.kind = kd
      · subst hkind
        simp only [added, hplace, hstored, keysIn, wf.keysOf_setKey v (by simpa using hp),
          wf.get?_eq_none_iff hkey, true_and, List.contains_iff_mem]
        split <;> simp
      · simp [added, hplace, hkind, keysIn, keysOf_setKey_of_ne _ v (Ne.symm hkind)]

/-- The entry of a new key stands at the end. -/
theorem entriesIn_set_of_new {p : Place} (hp : p ≠ .ordered .integer) {k : Value}
    (place : k.place? = some p) (absent : t.get? k = none) (v : Value) :
    (t.set k v).entriesIn p = t.entriesIn p ++ [(k.stored, v)] := by
  rcases k.key_cases with rfl | ⟨i, w, rfl⟩ | ⟨key, hkey⟩
  · cases place
  · cases place
    rcases wf.fallback.insert_cases i w v with ⟨n, hn, -⟩ | ⟨-, he⟩
    · rw [wf.get?_table_eq_none_iff] at absent
      exact absurd (List.mem_of_getElem? hn) absent
    · rw [entriesIn, entriesIn, set_table, he, Fallback.entries, Array.toList_push,
        Array.toList_push, List.zip_append (by simp [wf.fallback.aligned])]
      rfl
  · obtain ⟨hplace, hstored⟩ := Value.place?_of_toKey? hkey
    cases hplace.symm.trans place
    rw [wf.get?_eq_none_iff hkey] at absent
    rw [set_of_toKey? _ hkey, hstored, entriesIn, entriesIn,
      wf.entriesOf_setKey_of_new (by simpa using hp) absent, List.map_append]
    rfl

end WellFormed

/-- A write reaches one place only. -/
theorem entriesIn_set_of_ne (t : Table Value) {k : Value} {p : Place} (h : k.place? ≠ some p)
    (v : Value) : (t.set k v).entriesIn p = t.entriesIn p := by
  rcases k.key_cases with rfl | ⟨i, w, rfl⟩ | ⟨key, hkey⟩
  · rfl
  · cases p with
    | ordered kd => rw [entriesIn, entriesIn, entriesOf_set_of_toKey?_eq_none _ v rfl]
    | fallback => exact absurd rfl h
  · rw [(Value.place?_of_toKey? hkey).1] at h
    rw [set_of_toKey? _ hkey]
    cases p with
    | ordered kd =>
      have hkind : kd ≠ key.kind := by
        rintro rfl
        exact h rfl
      rw [entriesIn, entriesIn, entriesOf_setKey_of_ne _ v hkind]
    | fallback => rw [entriesIn, entriesIn, fallback_setKey]

end Table

end ScriptTable
