import Mathlib.Data.List.Perm.Basic
import ScriptTable.Proofs.Table.History

/-!
Tables with the same entries of each kind, in any order. Lookups and sizes do not see the difference,
and whole numbers have no order of their own to differ in. Pairs written in any order, with no key
twice, make tables of this sort.
-/

namespace ScriptTable.Table

variable {K V : Type}

/-- Entries of a partition as entries of a table. -/
theorem injective_keyed {f : K → Key} (hf : ∀ a b, f a = f b → a = b) :
    Function.Injective fun e : K × V => (f e.1, e.2) :=
  Function.Injective.prodMap (fun a b => hf a b) Function.injective_id

/-- The kinds tell the partitions of an entry list apart. -/
theorem entriesOf_eq_filter (t : Table V) (kd : Kind) :
    t.entriesOf kd = t.entries.filter (·.1.kind == kd) := by
  have hown : ∀ kd', (t.entriesOf kd').filter (·.1.kind == kd) =
      if kd' = kd then t.entriesOf kd' else [] := by
    intro kd'
    split <;> rename_i h
    · rw [List.filter_eq_self]
      intro e he
      rw [kind_of_mem_entriesOf he, beq_iff_eq, h]
    · rw [List.filter_eq_nil_iff]
      intro e he
      rwa [kind_of_mem_entriesOf he, beq_iff_eq]
  rw [entries_eq, List.filter_flatMap]
  simp only [hown]
  cases kd <;> simp [Kind.order]

/-- The same entries in every ordered partition, not necessarily in the same order. -/
def SameEntries (t u : Table V) : Prop := ∀ kd, (t.entriesOf kd).Perm (u.entriesOf kd)

theorem SameEntries.entries {t u : Table V} (same : t.SameEntries u) :
    t.entries.Perm u.entries := by
  rw [entries_eq, entries_eq]
  exact List.Perm.flatMap_left _ fun kd _ => same kd

theorem SameEntries.textEntries {t u : Table V} (same : t.SameEntries u) :
    t.textEntries.Perm u.textEntries :=
  (List.map_perm_map_iff (injective_keyed fun _ _ => Key.text.inj)).mp (same .text)

namespace WellFormed

variable {t u : Table Value} (wf : t.WellFormed) (wf' : u.WellFormed)
include wf wf'

/-- A table is determined by the entries of each partition. -/
theorem ext_entriesOf (entries : ∀ kd, t.entriesOf kd = u.entriesOf kd)
    (fallback : t.fallback = u.fallback) : t = u := by
  have hintegers := wf.integers.ext_entries wf'.integers
    (List.map_injective_iff.mpr (injective_keyed fun _ _ => Key.integer.inj) (entries .integer))
  have hfloats := wf.floats.ext_entries wf'.floats
    (List.map_injective_iff.mpr (injective_keyed fun _ _ => Key.float.inj) (entries .float))
  have htexts := wf.texts.ext_entries wf'.texts
    (List.map_injective_iff.mpr (injective_keyed fun _ _ => Key.text.inj) (entries .text))
  have hbooleans := wf.booleans.ext_entries wf'.booleans
    (List.map_injective_iff.mpr (injective_keyed fun _ _ => Key.boolean.inj) (entries .boolean))
  cases t
  cases u
  simp only at hintegers hfloats htexts hbooleans fallback
  rw [hintegers, hfloats, htexts, hbooleans, fallback]

theorem getKey?_eq_of_same (same : t.SameEntries u) (k : Key) : t.getKey? k = u.getKey? k := by
  rw [wf.getKey?_eq_lookup, wf'.getKey?_eq_lookup]
  exact lookup_eq_of_perm same.entries (wf.entries_keys ▸ wf.nodup_keys) k

theorem sizeOf_eq_of_same (same : t.SameEntries u) (kd : Kind) : t.sizeOf kd = u.sizeOf kd := by
  rw [sizeOf_eq, sizeOf_eq, ← wf.entriesOf_keys, ← wf'.entriesOf_keys, List.length_map,
    List.length_map, (same kd).length_eq]

theorem size_eq_of_same (same : t.SameEntries u) : t.size = u.size := by
  rw [size_eq, size_eq, ← wf.entries_keys, ← wf'.entries_keys, List.length_map, List.length_map,
    same.entries.length_eq]

theorem integers_eq_of_same (same : t.SameEntries u) : t.integers = u.integers := by
  apply wf.integers.eq_of_perm wf'.integers
  exact (List.map_perm_map_iff (injective_keyed fun _ _ => Key.integer.inj)).mp (same .integer)

end WellFormed

/-- The pairs whose first value is a key of an ordered partition, under that key. -/
def keyed (es : List (Value × Value)) : List (Key × Value) :=
  es.filterMap fun e => e.1.toKey?.map (·, e.2)

theorem keyed_concat (es : List (Value × Value)) (e : Value × Value) :
    keyed (es ++ [e]) = keyed es ++ (e.1.toKey?.map (·, e.2)).toList := by
  rw [keyed, List.filterMap_append, ← keyed]
  cases h : e.1.toKey? <;> simp [h]

/-- With no key twice, a partition holds the pairs of its kind. -/
theorem entriesOf_ofPairs {es : List (Value × Value)}
    (distinct : ((keyed es).map Prod.fst).Nodup) (kd : Kind) :
    ((ofPairs es).entriesOf kd).Perm ((keyed es).filter (·.1.kind == kd)) := by
  induction es using List.reverseRecOn with
  | nil => cases kd <;> exact .refl []
  | append_singleton es e ih =>
    obtain ⟨k, v⟩ := e
    rw [keyed_concat] at distinct ⊢
    rw [ofPairs_concat]
    cases hkey : k.toKey? with
    | none =>
      rw [hkey] at distinct
      rw [entriesOf_set_of_toKey?_eq_none _ _ hkey]
      simpa using ih (by simpa using distinct)
    | some key =>
      rw [hkey] at distinct
      rw [Option.map_some, Option.toList_some, List.map_append, List.map_singleton,
        ← List.concat_eq_append, List.nodup_concat] at distinct
      obtain ⟨fresh, distinct⟩ := distinct
      rw [set_of_toKey? _ hkey, Option.map_some, Option.toList_some, List.filter_append]
      by_cases hkind : key.kind = kd
      · -- the key is new to its partition, so the write adds one entry there
        subst hkind
        have hfresh : key ∉ ((ofPairs es).entriesOf key.kind).map Prod.fst := by
          intro hmem
          have hmem := ((ih distinct).map Prod.fst).mem_iff.mp hmem
          exact fresh ((List.filter_sublist.map Prod.fst).subset hmem)
        have hstep := ((wellFormed_ofPairs es).inserted_entriesOf key v).perm hfresh
        have hone : [(key, v)].filter (·.1.kind == key.kind) = [(key, v)] := by simp
        rw [hone]
        exact hstep.trans (((ih distinct).cons _).trans (List.perm_append_singleton _ _).symm)
      · have hnone : [(key, v)].filter (·.1.kind == kd) = [] := by simp [hkind]
        rw [entriesOf_setKey_of_ne _ _ (Ne.symm hkind), hnone, List.append_nil]
        exact ih distinct

theorem sameEntries_ofPairs {es es' : List (Value × Value)} (perm : (keyed es).Perm (keyed es'))
    (distinct : ((keyed es).map Prod.fst).Nodup) : (ofPairs es).SameEntries (ofPairs es') := by
  intro kd
  have distinct' := (perm.map Prod.fst).nodup_iff.mp distinct
  exact (entriesOf_ofPairs distinct kd).trans
    ((perm.filter _).trans (entriesOf_ofPairs distinct' kd).symm)

/-- Under whole numbers alone, no order of writing is seen. -/
theorem ofPairs_eq_of_integers {es es' : List (Value × Value)}
    (perm : (keyed es).Perm (keyed es')) (distinct : ((keyed es).map Prod.fst).Nodup)
    (integers : ∀ e ∈ keyed es, e.1.kind = .integer)
    (fallback : (ofPairs es).fallback = (ofPairs es').fallback) : ofPairs es = ofPairs es' := by
  have same := sameEntries_ofPairs perm distinct
  apply (wellFormed_ofPairs es).ext_entriesOf (wellFormed_ofPairs es') _ fallback
  intro kd
  by_cases hkind : kd = .integer
  · subst hkind
    rw [entriesOf, entriesOf,
      (wellFormed_ofPairs es).integers_eq_of_same (wellFormed_ofPairs es') same]
  · have hnone : (keyed es).filter (·.1.kind == kd) = [] := by
      rw [List.filter_eq_nil_iff]
      intro e he
      simp [integers e he, Ne.symm hkind]
    have hempty := entriesOf_ofPairs distinct kd
    rw [hnone, List.perm_nil] at hempty
    have hsame := same kd
    rw [hempty, List.nil_perm] at hsame
    rw [hempty, hsame]

end ScriptTable.Table
