import ScriptTable.Proofs.Lift.Orderly
import ScriptTable.Proofs.Lift.Outcome
import ScriptTable.Proofs.Projection.Kept
import ScriptTable.Proofs.Table.SameEntries
import ScriptTable.Proofs.Value.Render

/-!
Maps whose entries come in another order, as an unordered collection may give them. Which entry is
refused first depends on the order, but whether one is does not, and every refusal is for the same
limit. With no key twice the tables differ in nothing but the order within a kind, and whole numbers
have none but their own.
-/

namespace ScriptTable

/-- Two tables that give the same answers, identities and the order of the entries apart. -/
structure Table.Rearranged (t u : Table Value) : Prop where
  lookups : ∀ k, (t.getKey? k).map Value.forget = (u.getKey? k).map Value.forget
  size : t.size = u.size
  sizes : ∀ kd, t.sizeOf kd = u.sizeOf kd
  integers : t.integerEntries.map (fun e => (e.1, e.2.forget)) =
    u.integerEntries.map (fun e => (e.1, e.2.forget))
  list : t.asList.map Value.forget = u.asList.map Value.forget
  members : ∃ fields fields', t.toJson = .object fields ∧ u.toJson = .object fields' ∧
    fields.Perm fields'

theorem Table.integerEntries_forget (t : Table Value) :
    t.forget.integerEntries = t.integerEntries.map fun e => (e.1, e.2.forget) := by
  rw [forget_eq_map]
  exact t.integers.entries_map Value.forget

theorem Table.rearranged_of_same {t u : Table Value} (wf : t.forget.WellFormed)
    (wf' : u.forget.WellFormed) (same : t.forget.SameEntries u.forget) : t.Rearranged u := by
  have hintegers : t.forget.integers = u.forget.integers := wf.integers_eq_of_same wf' same
  constructor
  · intro k
    have hlookup := wf.getKey?_eq_of_same wf' same k
    rwa [forget_eq_map, forget_eq_map, getKey?_map, getKey?_map] at hlookup
  · have hsize := wf.size_eq_of_same wf' same
    rwa [forget_eq_map, forget_eq_map, size_map, size_map] at hsize
  · intro kd
    have hsize := wf.sizeOf_eq_of_same wf' same kd
    rwa [forget_eq_map, forget_eq_map, sizeOf_map, sizeOf_map] at hsize
  · rw [← integerEntries_forget, ← integerEntries_forget, integerEntries, integerEntries, hintegers]
  · rw [← asList_forget, ← asList_forget, asList, asList, hintegers]
  · rw [← t.toJson_forget, ← u.toJson_forget]
    exact ⟨_, _, t.forget.toJson_eq, u.forget.toJson_eq, same.textEntries.map _⟩

namespace Host

/-- No two entries have keys that are lifted to the same key. Null is no key and a composite is
passed over, so these may repeat. -/
def DistinctKeys (entries : List (Host × Host)) : Prop :=
  (entries.filterMap fun e => e.1.image.toKey?).Nodup

theorem keyed_imageEntries (entries : List (Host × Host)) :
    Table.keyed (imageEntries entries) =
      entries.filterMap fun e => e.1.image.toKey?.map (·, e.2.image) := by
  induction entries with
  | nil => rfl
  | cons e rest ih =>
    obtain ⟨k, h⟩ := e
    rw [imageEntries]
    by_cases hk : k.decompose.isComposite = true
    · have hnone : k.image.toKey? = none := by
        obtain ⟨t, ht⟩ := exists_image_eq_table hk
        rw [ht]
        rfl
      rw [if_pos hk, ih, List.filterMap_cons, hnone]
      rfl
    · rw [if_neg hk, Table.keyed, List.filterMap_cons, List.filterMap_cons, ← Table.keyed, ih]

theorem DistinctKeys.keyed {entries : List (Host × Host)} (distinct : DistinctKeys entries) :
    ((Table.keyed (imageEntries entries)).map Prod.fst).Nodup := by
  rw [DistinctKeys] at distinct
  rw [keyed_imageEntries, List.map_filterMap]
  simpa [Function.comp_def] using distinct

theorem keyed_perm {entries entries' : List (Host × Host)} (perm : entries.Perm entries') :
    (Table.keyed (imageEntries entries)).Perm (Table.keyed (imageEntries entries')) := by
  rw [keyed_imageEntries, keyed_imageEntries]
  exact perm.filterMap _

theorem depth_map_perm {entries entries' : List (Host × Host)} (perm : entries.Perm entries')
    (limit : Nat) : (map entries).depth ≤ limit ↔ (map entries').depth ≤ limit := by
  have hentries : ∀ n, depthEntries entries ≤ n ↔ depthEntries entries' ≤ n := by
    intro n
    simp only [depthEntries_le_iff, perm.mem_iff]
  have heq : depthEntries entries = depthEntries entries' :=
    Nat.le_antisymm ((hentries _).mpr le_rfl) ((hentries _).mp le_rfl)
  rw [depth, depth, heq]

/-- In whatever order the entries of a map come, it is refused for the same depth or lifted to
tables that differ in the order of their entries only; and if all the keys are whole numbers, in
their identities only. -/
theorem liftTable_perm {entries entries' : List (Host × Host)} (perm : entries.Perm entries')
    (distinct : DistinctKeys entries) (limit : Nat) (next next' : Identity) :
    (∃ e, (map entries).liftTable limit next = .error e ∧
        (map entries').liftTable limit next' = .error e) ∨
      ∃ t m u m', (map entries).liftTable limit next = .ok (t, m) ∧
        (map entries').liftTable limit next' = .ok (u, m') ∧ t.Rearranged u ∧
        ((∀ e ∈ entries, ∀ k, e.1.image.toKey? = some k → k.kind = .integer) →
          t.forget = u.forget) := by
  obtain ⟨t, m, hforget, hrun⟩ := lift_map entries next
  obtain ⟨u, m', hforget', hrun'⟩ := lift_map entries' next'
  have hdepth := depth_map_perm perm limit
  by_cases within : (map entries).depth ≤ limit
  · have htable := hrun limit
    have htable' := hrun' limit
    rw [if_pos within] at htable
    rw [if_pos (hdepth.mp within)] at htable'
    have hkeyed := keyed_perm perm
    refine .inr ⟨t, m, u, m', htable, htable', ?_, ?_⟩
    · apply Table.rearranged_of_same
      · rw [hforget]
        exact Table.wellFormed_ofPairs _
      · rw [hforget']
        exact Table.wellFormed_ofPairs _
      · rw [hforget, hforget']
        exact Table.sameEntries_ofPairs hkeyed distinct.keyed
    · intro integers
      rw [hforget, hforget']
      apply Table.ofPairs_eq_of_integers hkeyed distinct.keyed
      · intro e he
        rw [keyed_imageEntries, List.mem_filterMap] at he
        obtain ⟨f, hf, hkey⟩ := he
        obtain ⟨k, hk, rfl⟩ := Option.map_eq_some_iff.mp hkey
        exact integers f hf k hk
      · rw [fallback_ofPairs_imageEntries, fallback_ofPairs_imageEntries]
  · have htable := hrun limit
    have htable' := hrun' limit
    rw [if_neg within] at htable
    rw [if_neg (mt hdepth.mpr within)] at htable'
    exact .inl ⟨_, htable, htable'⟩

/-- Nulls and composites on every side of two whole numbers, one of them structured, turned around. -/
theorem liftTable_perm_of_numbers :
    let entries := [(.null, .text "a"), (.integer 2, .sequence [.null]), (.sequence [], .null),
      (.structured (.int 1), .text "b"), (.structured (.object []), .null), (.null, .boolean true)]
    ∃ t m u m', (map entries).liftTable 2 0 = .ok (t, m) ∧
      (map entries.reverse).liftTable 2 7 = .ok (u, m') ∧ t.forget = u.forget := by
  intro entries
  have distinct : DistinctKeys entries := by
    unfold DistinctKeys
    decide
  have within : (map entries).depth ≤ 2 := by decide
  obtain ⟨w, n, hw, -, -⟩ := lift_within rfl within 0
  rcases liftTable_perm entries.reverse_perm.symm distinct 2 0 7 with
    ⟨e, he, -⟩ | ⟨t, m, u, m', ht, hu, -, hsame⟩
  · rw [hw] at he
    cases he
  · refine ⟨t, m, u, m', ht, hu, hsame ?_⟩
    simp [entries, image, Json.image, Value.ofInt, Value.toKey?, fitsInteger, Key.kind]

end Host

end ScriptTable
