import ScriptTable.Proofs.Projection.Stable
import ScriptTable.Proofs.Table.SameEntries
import ScriptTable.Proofs.Table.Traversal
import ScriptTable.Proofs.Value.Equivalence

/-!
What equal tables have in common. Two well-formed tables are equal when their entries are equal in
pairs, each partition in its own order, and every reader is a function of the entries: so it gives
the same for equal tables, or values that are equal again.
-/

namespace ScriptTable

variable {K V W X Y : Type}

theorem forall₂_prod_iff {R : V → W → Prop} {S : X → Y → Prop} {l : List (V × X)}
    {m : List (W × Y)} : List.Forall₂ (fun d e => R d.1 e.1 ∧ S d.2 e.2) l m ↔
      List.Forall₂ R (l.map Prod.fst) (m.map Prod.fst) ∧
        List.Forall₂ S (l.map Prod.snd) (m.map Prod.snd) := by
  induction l generalizing m with
  | nil => cases m <;> simp
  | cons d l ih => cases m <;> simp [ih, and_and_and_comm]

/-- The same key, and values that are related. -/
def Entrywise (R : V → W → Prop) : List (K × V) → List (K × W) → Prop :=
  List.Forall₂ fun d e => d.1 = e.1 ∧ R d.2 e.2

namespace Entrywise

variable {R : V → W → Prop} {l : List (K × V)} {m : List (K × W)}

theorem iff_keys_values : Entrywise R l m ↔
    l.map Prod.fst = m.map Prod.fst ∧ List.Forall₂ R (l.map Prod.snd) (m.map Prod.snd) := by
  rw [Entrywise, forall₂_prod_iff, List.forall₂_eq_eq_eq]

/-- Both are absent, or both are there and related. -/
theorem lookup [BEq K] (h : Entrywise R l m) (k : K) :
    Option.Rel R (l.lookup k) (m.lookup k) := by
  induction h with
  | nil => exact .none
  | @cons d e l m hde _ ih =>
    obtain ⟨k', v⟩ := d
    obtain ⟨k'', w⟩ := e
    obtain ⟨rfl, hvw⟩ := hde
    simp only [List.lookup_cons]
    split
    · exact .some hvw
    · exact ih

end Entrywise

namespace Table

variable {R : V → W → Prop}

/-- Tables are compared partition by partition, or all entries at once. -/
theorem entrywise_entries_iff {t : Table V} {u : Table W} :
    Entrywise R t.entries u.entries ↔ ∀ kd, Entrywise R (t.entriesOf kd) (u.entriesOf kd) := by
  constructor
  · intro h kd
    rw [entriesOf_eq_filter, entriesOf_eq_filter]
    refine List.rel_filter ?_ h
    rintro d e ⟨hkey, -⟩
    simp [hkey]
  · intro h
    rw [entries_eq, entries_eq]
    refine List.rel_flatMap (R := Eq) (List.forall₂_same.mpr fun _ _ => rfl) ?_
    rintro kd _ rfl
    exact h kd

namespace WellFormed

variable {t u : Table Value} (wf : t.WellFormed)
include wf

theorem entriesOf_values (kd : Kind) : (t.entriesOf kd).map Prod.snd = t.valuesOf kd := by
  cases kd with
  | integer => rw [valuesOf, ← wf.integers.entries_values, entriesOf, List.map_map]; rfl
  | float => rw [valuesOf, ← wf.floats.entries_values, entriesOf, List.map_map]; rfl
  | text => rw [valuesOf, ← wf.texts.entries_values, entriesOf, List.map_map]; rfl
  | boolean => rw [valuesOf, ← wf.booleans.entries_values, entriesOf, List.map_map]; rfl

theorem fallback_entries_keys : t.fallback.entries.map Prod.fst = t.fallback.keys.toList :=
  List.map_fst_zip (by simp [wf.fallback.aligned])

theorem fallback_entries_values : t.fallback.entries.map Prod.snd = t.fallback.values.toList :=
  List.map_snd_zip (by simp [wf.fallback.aligned])

variable (wf' : u.WellFormed)
include wf'

/-- Equality of the stored arrays is equality of the entries. -/
theorem matches_iff {R : Value → Value → Prop} : t.Matches R u ↔
    Entrywise R t.entries u.entries ∧
      List.Forall₂ (fun d e => R d.1 e.1 ∧ R d.2 e.2) t.fallback.entries u.fallback.entries := by
  have hkind : ∀ kd, Entrywise R (t.entriesOf kd) (u.entriesOf kd) ↔
      t.keysOf kd = u.keysOf kd ∧ List.Forall₂ R (t.valuesOf kd) (u.valuesOf kd) := by
    intro kd
    rw [Entrywise.iff_keys_values, wf.entriesOf_keys, wf'.entriesOf_keys, wf.entriesOf_values,
      wf'.entriesOf_values]
  rw [entrywise_entries_iff, forall₂_prod_iff, wf.fallback_entries_keys, wf'.fallback_entries_keys,
    wf.fallback_entries_values, wf'.fallback_entries_values]
  simp only [hkind]
  constructor
  · intro h
    exact ⟨fun kd => ⟨h.keys kd, h.values kd⟩, h.fallbackKeys, h.fallbackValues⟩
  · rintro ⟨hkinds, hfallback⟩
    exact ⟨fun kd => (hkinds kd).1, wf.sameIndexes wf' fun kd => (hkinds kd).1,
      fun kd => (hkinds kd).2, hfallback.1, hfallback.2⟩

/-- The keys determine a traversal, its refusals included. -/
theorem nextKey_eq_of_keys (keys : t.keys = u.keys) (k : Key) : t.nextKey k = u.nextKey k := by
  by_cases hk : k ∈ t.keys
  · obtain ⟨pre, post, hsplit⟩ := List.append_of_mem hk
    rw [wf.nextKey_of_split hsplit, wf'.nextKey_of_split (keys ▸ hsplit)]
  · rw [wf.nextKey_of_not_mem hk, wf'.nextKey_of_not_mem (keys ▸ hk)]

theorem containsKey_eq_of_keys (keys : t.keys = u.keys) (k : Key) :
    t.containsKey k = u.containsKey k := by
  rw [Bool.eq_iff_iff, wf.containsKey_iff, wf'.containsKey_iff, keys]

end WellFormed

end Table

namespace Double

/-- Equal floats are finite together. -/
theorem isFinite_eq_of_numEq {x y : Double} (h : x.numEq y = true) : x.isFinite = y.isFinite := by
  obtain ⟨-, -, rfl | ⟨hx, hy⟩⟩ := (numEq_iff x y).mp h
  · rfl
  · rw [isZero, beq_iff_eq] at hx hy
    rw [isFinite, isFinite, hx, hy]

end Double

namespace Json

/-- Objects with the same distinct names and equal members in pairs are equal. -/
theorem equiv_object {f g : List (String × Json)} (nodup : (f.map Prod.fst).Nodup)
    (h : Entrywise (fun x y => x.equiv y = true) f g) : (object f).equiv (object g) = true := by
  have hmember : ∀ e ∈ f, ∃ y, g.lookup e.1 = some y ∧ e.2.equiv y = true := by
    intro e he
    have hlookup := h.lookup e.1
    rw [lookup_of_mem nodup he] at hlookup
    cases hg : g.lookup e.1 with
    | none =>
      rw [hg] at hlookup
      cases hlookup
    | some y =>
      rw [hg] at hlookup
      cases hlookup with
      | some hequiv => exact ⟨y, rfl, hequiv⟩
  have hfields : ∀ f' : List (String × Json), (∀ e ∈ f', e ∈ f) → fieldsIn f' g = true := by
    intro f' hsub
    induction f' with
    | nil => rfl
    | cons e f' ih =>
      rw [List.forall_mem_cons] at hsub
      obtain ⟨y, hlookup, hequiv⟩ := hmember e hsub.1
      simp only [fieldsIn, hlookup, hequiv, ih hsub.2, Bool.and_self]
  rw [equiv, List.Forall₂.length_eq h, hfields f fun _ he => he]
  simp

end Json

/-- Tables that match have matching texts. -/
theorem Table.Matches.textEntries {R : Value → W → Prop} {t : Table Value} {u : Table W}
    (h : t.Matches R u) (wf : t.WellFormed) : Entrywise R t.textEntries u.textEntries := by
  have hkeys : t.texts.keys = u.texts.keys := (keysOf_eq_iff.mp h.keys).2.2.1
  have hvalues : List.Forall₂ R t.texts.values.toList u.texts.values.toList := h.values .text
  have haligned : u.texts.keys.toList.length = u.texts.values.toList.length := by
    rw [← hkeys, ← hvalues.length_eq]
    simp [wf.texts.aligned]
  rw [Entrywise.iff_keys_values, Table.textEntries, Table.textEntries, wf.texts.entries_keys,
    wf.texts.entries_values, Ordered.entries, List.map_fst_zip haligned.le,
    List.map_snd_zip haligned.ge, hkeys]
  exact ⟨rfl, hvalues⟩

/-- Equal values have equal projections. -/
theorem Value.equiv_toJson {v w : Value} (hv : v.Reachable) (h : v.equiv w = true) :
    v.toJson.equiv w.toJson = true := by
  induction v using Value.induction generalizing w with
  | primitive v hprimitive =>
    rcases (equiv_primitive_iff hprimitive).mp h with ⟨x, y, rfl, rfl, hxy⟩ | ⟨rfl, hfloat⟩
    · rw [toJson, toJson, Double.isFinite_eq_of_numEq hxy]
      split
      · exact hxy
      · rfl
    · cases v with
      | table i t => cases hprimitive
      | float x => exact absurd rfl (hfloat x)
      | _ => simp [toJson, Json.equiv]
  | table i t ih =>
    cases w with
    | table j u =>
      cases hv with
      | table i ht =>
        have hstored := (Table.equiv_iff.mp h).imp fun v hv w => ih v hv (ht.contents v hv)
        rw [toJson, toJson, t.toJson_eq, u.toJson_eq]
        apply Json.equiv_object
        · rw [List.map_map]
          exact ht.wellFormed.nodup_textEntries
        · rw [Entrywise, List.forall₂_map_left_iff, List.forall₂_map_right_iff]
          exact hstored.textEntries ht.wellFormed
    | _ => cases h

namespace Table

/-- What every reader gives: the same for both tables, or values that are both absent or equal. -/
structure SameReadings (t u : Table Value) : Prop where
  firstKey? : t.firstKey? = u.firstKey?
  nextKey : ∀ k, t.nextKey k = u.nextKey k
  containsKey : ∀ k, t.containsKey k = u.containsKey k
  getKey? : ∀ k, Option.Rel (fun v w => v.equiv w = true) (t.getKey? k) (u.getKey? k)
  getText? : ∀ s, Option.Rel (fun v w => v.equiv w = true) (t.getText? s) (u.getText? s)
  get? : ∀ k, k.isTable = false →
    Option.Rel (fun v w => v.equiv w = true) (t.get? k) (u.get? k)
  size : t.size = u.size
  sizeOf : ∀ kd, t.sizeOf kd = u.sizeOf kd
  fallbackSize : t.fallback.size = u.fallback.size
  asList : List.Forall₂ (fun v w => v.equiv w = true) t.asList u.asList
  toJson : t.toJson.equiv u.toJson = true

theorem Reachable.sameReadings {t u : Table Value} (ht : t.Reachable) (hu : u.Reachable)
    (h : t.equiv u = true) : t.SameReadings u := by
  have wf := ht.wellFormed
  have wf' := hu.wellFormed
  have hmatches := equiv_iff.mp h
  obtain ⟨hentries, hfallback⟩ := (wf.matches_iff wf').mp hmatches
  have hkeys : t.keys = u.keys := by
    rw [← wf.entries_keys, ← wf'.entries_keys]
    exact (Entrywise.iff_keys_values.mp hentries).1
  have hget : ∀ k, Option.Rel (fun v w => v.equiv w = true) (t.getKey? k) (u.getKey? k) := by
    intro k
    rw [wf.getKey?_eq_lookup, wf'.getKey?_eq_lookup]
    exact hentries.lookup k
  refine
    { firstKey? := by rw [t.firstKey?_eq, u.firstKey?_eq, hkeys]
      nextKey := wf.nextKey_eq_of_keys wf' hkeys
      containsKey := wf.containsKey_eq_of_keys wf' hkeys
      getKey? := hget
      getText? := fun s => hget (.text s)
      get? := ?_
      size := by rw [t.size_eq, u.size_eq, hkeys]
      sizeOf := fun kd => by rw [t.sizeOf_eq, u.sizeOf_eq, hmatches.keys]
      fallbackSize := hmatches.fallbackKeys.length_eq
      asList := hmatches.values .integer
      toJson := Value.equiv_toJson (.table 0 ht) (w := .table 0 u) h }
  intro k hk
  rcases k.key_cases with rfl | ⟨i, w, rfl⟩ | ⟨key, hkey⟩
  · exact .none
  · cases hk
  · rw [get?_of_toKey? _ hkey, get?_of_toKey? _ hkey]
    exact hget key

/-- Structural equality is equality of what can be listed, no more and no less: the keys and values
of a traversal in order, and the entries that a traversal does not visit. The indexes that are
compared with them add nothing, and no reader tells equal tables apart. -/
theorem equiv_iff_listed {t u : Table Value} (ht : t.Reachable) (hu : u.Reachable) :
    (t.equiv u = true ↔
      t.pairs.map Prod.fst = u.pairs.map Prod.fst ∧
      List.Forall₂ (fun v w => v.equiv w = true) (t.pairs.map Prod.snd) (u.pairs.map Prod.snd) ∧
      List.Forall₂ (fun d e => d.1.equiv e.1 = true ∧ d.2.equiv e.2 = true)
        t.fallback.entries u.fallback.entries) ∧
    (t.equiv u = true → t.SameReadings u ∧
      t.floats.index = u.floats.index ∧ t.texts.index = u.texts.index ∧
        t.booleans.index = u.booleans.index) := by
  have wf := ht.wellFormed
  have wf' := hu.wellFormed
  constructor
  · rw [equiv_iff, wf.matches_iff wf', Entrywise.iff_keys_values, wf.pairs_eq_entries,
      wf'.pairs_eq_entries, and_assoc]
  · intro h
    exact ⟨ht.sameReadings hu h, (equiv_iff.mp h).indexes⟩

/-- The two zeros in tables of their own, and table keys of different identities. -/
theorem sameReadings_of_zeros :
    let holding (i : Identity) (x : Double) :=
      (ofTexts [("a", .table i (ofTexts [("z", .float x)]))]).set (.table (i + 1) .empty) .none
    let t := holding 1 ⟨0x8000000000000000⟩
    let u := holding 3 .zero
    t.equiv u = true ∧ t.toJson.equiv u.toJson = true ∧
      t.nextKey (.text "a") = u.nextKey (.text "a") := by
  intro holding t u
  have hreachable : ∀ i x, (holding i x).Reachable := by
    intro i x
    have hinner : (ofTexts [("z", .float x)]).Reachable :=
      .ofTexts (List.forall_mem_singleton.mpr (.float x))
    have houter : (ofTexts [("a", .table i (ofTexts [("z", .float x)]))]).Reachable :=
      .ofTexts (List.forall_mem_singleton.mpr (.table i hinner))
    exact houter.set (.table _ .empty) .none
  have htexts : ∀ (s : String) (v w : Value), v.equiv w = true →
      (ofTexts [(s, v)]).Matches (fun v w => v.equiv w = true) (ofTexts [(s, w)]) := by
    intro s v w h
    have hof : ∀ v : Value, (Ordered.ofEntries [(s, v)]).keys.toList = [s] ∧
        (Ordered.ofEntries [(s, v)]).values.toList = [v] := fun v =>
      Ordered.toList_ofEntries (List.nodup_singleton s)
    constructor
    · intro kd
      cases kd <;> simp [keysOf, ofTexts, hof, empty]
    · have hkeys : (Ordered.ofEntries [(s, v)]).keys = (Ordered.ofEntries [(s, w)]).keys :=
        Array.toList_inj.mp ((hof v).1.trans (hof w).1.symm)
      exact ⟨rfl, (Ordered.wellFormed_ofEntries _).index_eq (Ordered.wellFormed_ofEntries _) hkeys,
        rfl⟩
    · intro kd
      cases kd <;> simp [valuesOf, ofTexts, hof, empty, h]
    · exact .nil
    · exact .nil
  have hzeros : (Value.float ⟨0x8000000000000000⟩).equiv (.float .zero) = true := by
    rw [Value.equiv]
    decide
  have hinner := htexts "z" _ _ hzeros
  have houter := htexts "a" (.table 1 _) (.table 3 _) (equiv_iff.mpr hinner)
  have hfallback : ∀ i x, (holding i x).fallback = ⟨#[.table (i + 1) empty], #[.none]⟩ := by
    intro i x
    simp [holding, set_table, ofTexts, empty, Fallback.insert, Fallback.position?]
  have hempty : (Value.table 2 empty).equiv (.table 4 empty) = true := by
    rw [Value.equiv]
    exact equiv_self_iff.mpr freeOfNaN_empty
  have hequiv : t.equiv u = true := by
    refine equiv_iff.mpr ⟨houter.keys, houter.indexes, houter.values, ?_, ?_⟩
    · rw [hfallback, hfallback]
      exact .cons hempty .nil
    · rw [hfallback, hfallback]
      exact .cons rfl .nil
  have hreadings := ((equiv_iff_listed (hreachable 1 _) (hreachable 3 _)).2 hequiv).1
  exact ⟨hequiv, hreadings.toJson, hreadings.nextKey _⟩

end Table

end ScriptTable
