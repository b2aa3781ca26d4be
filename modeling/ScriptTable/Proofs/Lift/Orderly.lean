import ScriptTable.Proofs.Json.Every
import ScriptTable.Proofs.Lift.Composite
import ScriptTable.Proofs.Table.Texts
import ScriptTable.Proofs.Table.WellFormed

/-!
What conversions make. A composite key is passed over where it stands, so no table in a result has
fallback entries, at any depth, and the tables are nested no deeper than the host value is. This is
shown of the image of a host value, and forgetting identities changes neither keys nor nesting.
-/

namespace ScriptTable

variable {V : Type}

/-- No fallback entries, and in the ordered partitions canonical keys, none of them twice and the
whole numbers ascending. -/
structure Table.Orderly (t : Table Value) : Prop where
  fallback : t.fallback = ⟨#[], #[]⟩
  keyed : ∀ k, (t.get? k).isSome = true → ∃ key, k.toKey? = some key ∧ key ∈ t.keys
  canonical : ∀ x ∈ t.floats.keys.toList, x.value.canonical = x.value
  ascending : t.integers.keys.toList.Pairwise (· < ·)
  floats : t.floats.keys.toList.Nodup
  texts : t.texts.keys.toList.Nodup
  booleans : t.booleans.keys.toList.Nodup

theorem Table.WellFormed.orderly {t : Table Value} (wf : t.WellFormed)
    (fallback : t.fallback = ⟨#[], #[]⟩) : t.Orderly where
  fallback := fallback
  keyed := by
    have ordered : ∀ key, (t.getKey? key).isSome = true → key ∈ t.keys :=
      fun key => (wf.getKey?_isSome_iff key).mp
    intro k h
    cases k with
    | none => cases h
    | integer n => exact ⟨_, rfl, ordered (.integer n) h⟩
    | float x => exact ⟨_, rfl, ordered (.ofDouble x) h⟩
    | boolean b => exact ⟨_, rfl, ordered (.boolean b) h⟩
    | text s => exact ⟨_, rfl, ordered (.text s) h⟩
    | table i u =>
      rw [get?, fallback] at h
      simp [Fallback.get?, Fallback.position?] at h
  canonical := fun x _ => x.canonical
  ascending := wf.integers.ascending
  floats := wf.floats.nodup
  texts := wf.texts.nodup
  booleans := wf.booleans.nodup

/-- Values of at most `n` levels of tables, every one of them well formed and without fallback
entries. -/
inductive Value.Orderly : Nat → Value → Prop where
  | primitive {n : Nat} {v : Value} (h : v.isTable = false) : Value.Orderly n v
  | table {n : Nat} (i : Identity) {t : Table Value} (wf : t.WellFormed)
      (fallback : t.fallback = ⟨#[], #[]⟩) (h : ∀ v ∈ t.contents, Value.Orderly n v) :
      Value.Orderly (n + 1) (.table i t)

namespace Value.Orderly

theorem mono {m n : Nat} {v : Value} (h : v.Orderly m) (hle : m ≤ n) : v.Orderly n := by
  induction h generalizing n with
  | primitive h => exact .primitive h
  | table i wf fallback _ ih =>
    obtain ⟨n, rfl⟩ : ∃ k, n = k + 1 := ⟨n - 1, by omega⟩
    exact .table i wf fallback fun v hv => ih v hv (by omega)

theorem nesting_le {n : Nat} {v : Value} (h : v.Orderly n) : v.nesting ≤ n := by
  induction h with
  | @primitive n v h =>
    cases v with
    | table i t => cases h
    | _ => exact Nat.zero_le n
  | table i _ _ _ ih => exact Table.nesting_le_iff.mpr ih

theorem wellFormed {n : Nat} {i : Identity} {t : Table Value} (h : (Value.table i t).Orderly n) :
    t.WellFormed := by
  cases h with
  | primitive h => cases h
  | table _ wf _ _ => exact wf

/-- Every table inside is well formed and without fallback entries. -/
theorem wellFormed_inside {n : Nat} {v : Value} (h : v.Orderly n) :
    ∀ i t, v = .table i t → ∀ u : Table Value, u.Inside t →
      u.WellFormed ∧ u.fallback = ⟨#[], #[]⟩ := by
  induction h with
  | primitive h =>
    rintro i t rfl
    cases h
  | table i wf fallback _ ih =>
    intro j t ht
    obtain ⟨-, rfl⟩ := Value.table.inj ht
    exact Table.forall_inside_iff.mpr
      ⟨⟨wf, fallback⟩, fun i w hw u hu => ih _ hw i w rfl u hu⟩

theorem inside {n : Nat} {v : Value} (h : v.Orderly n) (i : Identity) (t : Table Value)
    (ht : v = .table i t) (u : Table Value) (hu : u.Inside t) : u.Orderly := by
  obtain ⟨wf, fallback⟩ := h.wellFormed_inside i t ht u hu
  exact wf.orderly fallback

end Value.Orderly

/-- What is well formed without its identities is well formed with them. -/
theorem Table.wellFormed_of_forget {t : Table Value} (wf : t.forget.WellFormed)
    (fallback : t.forget.fallback = ⟨#[], #[]⟩) : t.WellFormed ∧ t.fallback = ⟨#[], #[]⟩ := by
  rw [forget_eq_map] at wf fallback
  have hempty : t.fallback = ⟨#[], #[]⟩ := by
    obtain ⟨hkeys, hvalues⟩ := Fallback.mk.inj fallback
    rw [Array.map_eq_empty_iff] at hkeys hvalues
    cases h : t.fallback
    simp_all
  exact ⟨⟨Sorted.wellFormed_map_iff.mp wf.integers, Ordered.wellFormed_map_iff.mp wf.floats,
    Ordered.wellFormed_map_iff.mp wf.texts, Ordered.wellFormed_map_iff.mp wf.booleans,
    hempty ▸ Fallback.wellFormed_empty⟩, hempty⟩

/-- The hypothesis is about `v.forget`, so the induction is on the levels. -/
theorem Value.Orderly.of_forget {n : Nat} {v : Value} (h : v.forget.Orderly n) : v.Orderly n := by
  induction n generalizing v with
  | zero =>
    cases v with
    | table i t => cases h with | primitive h => cases h
    | _ => exact .primitive rfl
  | succ n ih =>
    cases v with
    | table i t =>
      cases h with
      | primitive h => cases h
      | table _ wf fallback hcontents =>
        rw [Table.contents_forget, List.forall_mem_map] at hcontents
        obtain ⟨wf, fallback⟩ := Table.wellFormed_of_forget wf fallback
        exact .table i wf fallback fun v hv => ih (hcontents v hv)
    | _ => exact .primitive rfl

theorem Sorted.WellFormed.insertFrom {p : Sorted V} (wf : p.WellFormed) (k : Int) (vs : List V) :
    (p.insertFrom k vs).WellFormed := by
  induction vs generalizing p k with
  | nil => exact wf
  | cons v vs ih => exact ih (wf.insert k v) (k + 1)

theorem Table.wellFormed_positional (vs : List Value) : (positional vs).WellFormed := by
  rw [← ofList_eq_positional]
  exact { wellFormed_empty with integers := Sorted.wellFormed_empty.insertFrom 1 vs }

theorem Value.Orderly.positional {n : Nat} (i : Identity) {vs : List Value}
    (h : ∀ v ∈ vs, v.Orderly n) : (Value.table i (.positional vs)).Orderly (n + 1) := by
  have hcontents : (Table.positional vs).contents = vs := by
    simp [Table.contents, Table.positional, Table.empty]
  refine .table i (Table.wellFormed_positional vs) rfl ?_
  rwa [hcontents]

theorem Table.fallback_set (t : Table Value) {k : Value} (v : Value) (h : k.isTable = false) :
    (t.set k v).fallback = t.fallback := by
  cases k with
  | table i u => cases h
  | _ => rfl

/-- Pairs whose keys are no tables leave the fallback partition alone, and store their values. -/
theorem Table.ofPairs_spec {es : List (Value × Value)} (keys : ∀ e ∈ es, e.1.isTable = false) :
    (ofPairs es).fallback = ⟨#[], #[]⟩ ∧ ∀ v ∈ (ofPairs es).contents, ∃ e ∈ es, v = e.2 := by
  induction es using List.reverseRecOn with
  | nil => exact ⟨rfl, by simp [ofPairs]⟩
  | append_singleton es e ih =>
    rw [List.forall_mem_append, List.forall_mem_singleton] at keys
    obtain ⟨fallback, stored⟩ := ih keys.1
    rw [ofPairs_concat]
    constructor
    · rw [fallback_set _ _ keys.2, fallback]
    · intro v hv
      rcases mem_contents_set hv with ⟨-, htable⟩ | rfl | hv
      · rw [keys.2] at htable
        cases htable
      · exact ⟨e, by simp, rfl⟩
      · obtain ⟨e', he', rfl⟩ := stored v hv
        exact ⟨e', List.mem_append_left _ he', rfl⟩

theorem Value.Orderly.ofPairs {n : Nat} (i : Identity) {es : List (Value × Value)}
    (keys : ∀ e ∈ es, e.1.isTable = false) (values : ∀ e ∈ es, e.2.Orderly n) :
    (Value.table i (.ofPairs es)).Orderly (n + 1) := by
  obtain ⟨fallback, stored⟩ := Table.ofPairs_spec keys
  refine .table i (Table.wellFormed_ofPairs es) fallback fun v hv => ?_
  obtain ⟨e, he, rfl⟩ := stored v hv
  exact values e he

theorem Json.orderly_image (j : Json) : j.image.Orderly j.nesting := by
  induction j using Json.induction with
  | primitive j hj =>
    cases j with
    | int n =>
      rw [image, Value.ofInt]
      split <;> exact .primitive rfl
    | list items => cases hj
    | object fields => cases hj
    | _ => exact .primitive rfl
  | list items ih =>
    rw [image_list, nesting, Nat.add_comm]
    refine .positional 0 (List.forall_mem_map.mpr fun j hj => ?_)
    exact (ih j hj).mono (nestingAll_le_iff.mp le_rfl j hj)
  | object fields ih =>
    rw [image_object, ← Table.ofPairs_texts, List.map_map, nesting, Nat.add_comm]
    refine .ofPairs 0 (List.forall_mem_map.mpr fun f _ => rfl)
      (List.forall_mem_map.mpr fun f hf => ?_)
    exact (ih f hf).mono (nestingFields_le_iff.mp le_rfl f hf)

namespace Host

mutual

theorem orderly_image (h : Host) : h.image.Orderly h.depth := by
  cases h with
  | sequence items =>
    rw [image, depth, Nat.add_comm]
    exact .positional 0 (orderly_imageItems items)
  | map entries =>
    rw [image, depth, Nat.add_comm]
    have hentries := orderly_imageEntries entries
    exact .ofPairs 0 (fun e he => (hentries e he).1) (fun e he => (hentries e he).2)
  | structured j => exact j.orderly_image
  | _ => exact .primitive rfl

theorem orderly_imageItems (items : List Host) :
    ∀ v ∈ imageItems items, v.Orderly (depthItems items) := by
  match items with
  | [] => simp [imageItems]
  | h :: rest =>
    rw [imageItems, depthItems, List.forall_mem_cons]
    exact ⟨(orderly_image h).mono (Nat.le_max_left _ _),
      fun v hv => (orderly_imageItems rest v hv).mono (Nat.le_max_right _ _)⟩

theorem orderly_imageEntries (entries : List (Host × Host)) :
    ∀ e ∈ imageEntries entries, e.1.isTable = false ∧ e.2.Orderly (depthEntries entries) := by
  match entries with
  | [] => simp [imageEntries]
  | (k, h) :: rest =>
    have hrest : ∀ e ∈ imageEntries rest,
        e.1.isTable = false ∧ e.2.Orderly (depthEntries ((k, h) :: rest)) := by
      intro e he
      obtain ⟨hkey, hvalue⟩ := orderly_imageEntries rest e he
      exact ⟨hkey, hvalue.mono (Nat.le_max_right _ _)⟩
    rw [imageEntries]
    by_cases hk : k.decompose.isComposite = true
    · rwa [if_pos hk]
    · rw [if_neg hk, List.forall_mem_cons]
      refine ⟨⟨by rwa [k.isTable_image, ← Bool.not_eq_true], (orderly_image h).mono ?_⟩, hrest⟩
      rw [depthEntries, if_neg hk]
      omega

end

/-- No key of a map becomes a key of the fallback partition. -/
theorem fallback_ofPairs_imageEntries (entries : List (Host × Host)) :
    (Table.ofPairs (imageEntries entries)).fallback = ⟨#[], #[]⟩ :=
  (Table.ofPairs_spec fun e he => (orderly_imageEntries entries e he).1).1

/-- Whatever is lifted, every table in the result is orderly, and tables are nested within the
limit. -/
theorem orderly_lifted (h : Host) (limit : Nat) (next : Identity) :
    (∀ v next', h.liftValue limit next = .ok (v, next') →
        v.nesting ≤ limit ∧ ∀ i t, v = .table i t → ∀ u : Table Value, u.Inside t → u.Orderly) ∧
      ∀ t next', h.liftTable limit next = .ok (t, next') →
        t.nesting ≤ limit ∧ ∀ u : Table Value, u.Inside t → u.Orderly := by
  have horderly : ∀ v : Value, v.forget = h.image → h.depth ≤ limit → v.Orderly limit := by
    intro v hv hle
    apply Value.Orderly.of_forget
    rw [hv]
    exact h.orderly_image.mono hle
  constructor
  · intro v next' hrun
    obtain ⟨w, m, hw, hlift⟩ := h.liftValue_eq next
    rw [hlift] at hrun
    split at hrun
    · rename_i hle
      cases hrun
      have hv := horderly v hw hle
      exact ⟨hv.nesting_le, hv.inside⟩
    · cases hrun
  · intro t next' hrun
    by_cases hcomposite : h.decompose.isComposite = true
    · obtain ⟨u, m, hu, hlift⟩ := h.lift_composite hcomposite next
      rw [(hlift limit).1] at hrun
      split at hrun
      · rename_i hle
        cases hrun
        have hv := horderly (.table 0 t) hu hle
        exact ⟨hv.nesting_le, hv.inside 0 t rfl⟩
      · cases hrun
    · rw [Bool.not_eq_true] at hcomposite
      rw [(h.lift_primitive hcomposite limit next).1] at hrun
      cases hrun

/-- A composite key, one that is composite only once it is taken apart, a null and both zeros. -/
theorem orderly_lifted_of_keys :
    let h := map [(.sequence [], .sequence []), (.structured (.object []), .null),
      (.null, .integer 1), (.float ⟨0x8000000000000000⟩, .structured (.list [.null])),
      (.float ⟨0⟩, .text "a")]
    ∃ t next', h.liftTable 2 0 = .ok (t, next') ∧
      h.liftValue 2 0 = .ok (.table next' t, next' + 1) ∧
      t.nesting ≤ 2 ∧ ∀ u : Table Value, u.Inside t → u.Orderly := by
  intro h
  have hdepth : h.depth ≤ 2 := by decide
  obtain ⟨t, next', htable, hvalue, -⟩ := lift_within (h := h) rfl hdepth 0
  exact ⟨t, next', htable, hvalue, (orderly_lifted h 2 0).2 t next' htable⟩

end Host

end ScriptTable
