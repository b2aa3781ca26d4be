import ScriptTable.Projection
import ScriptTable.Proofs.Double.Nearest
import ScriptTable.Proofs.Json.Every
import ScriptTable.Proofs.Lift.Composite
import ScriptTable.Proofs.Table.Texts
import ScriptTable.Proofs.Value.Inside

/-!
A document lifted to a table and projected again. Identities do not matter to a projection, so it is
enough to project the image of the document; what comes back is the document without what a table
has no text keys for.
-/

namespace ScriptTable

theorem Table.toJson_eq (t : Table Value) :
    t.toJson = .object (t.textEntries.map fun e => (e.1, e.2.toJson)) := by
  obtain ⟨integers, floats, ⟨names, index, ⟨values⟩⟩, booleans, fallback⟩ := t
  have hfields : ∀ (names : List String) (values : List Value),
      Value.toFields names values = (names.zip values).map fun e => (e.1, e.2.toJson) := by
    intro names values
    induction names generalizing values with
    | nil => simp [Value.toFields]
    | cons name names ih =>
      cases values with
      | nil => simp [Value.toFields]
      | cons v values => simp [Value.toFields, ih]
  rw [toJson, hfields]
  rfl

theorem Table.textEntries_forget (t : Table Value) :
    t.forget.textEntries = t.textEntries.map fun e => (e.1, e.2.forget) := by
  rw [forget_eq_map]
  exact t.texts.entries_map Value.forget

theorem Table.mem_contents_of_textEntries {t : Table V} {e : String × V} (h : e ∈ t.textEntries) :
    e.2 ∈ t.contents := by
  have hvalues : e.2 ∈ t.texts.values.toList := (List.of_mem_zip (show (e.1, e.2) ∈ _ from h)).2
  simp [contents, hvalues]

/-- Projection does not see identities. -/
theorem Table.toJson_forget (t : Table Value) : t.forget.toJson = t.toJson := by
  induction t using Table.induction with
  | step t ih =>
    rw [toJson_eq, toJson_eq, textEntries_forget, List.map_map]
    congr 1
    apply List.map_congr_left
    rintro ⟨name, v⟩ h
    have hv := mem_contents_of_textEntries h
    cases v with
    | table i u => exact congrArg (Prod.mk name) (ih i u hv)
    | _ => rfl

namespace Json

theorem toJson_ofInt {n : Int} (h : (int n).inRange = true) :
    (Value.ofInt n).toJson = (int n).kept := by
  rw [Value.ofInt, kept]
  by_cases hfits : Host.fitsInteger n = true
  · rw [if_pos hfits, if_pos hfits]
    rfl
  · have hbounds := hfits
    simp only [inRange, Host.fitsInteger, Bool.and_eq_true, decide_eq_true_eq] at h hbounds
    obtain ⟨m, rfl⟩ := Int.eq_ofNat_of_zero_le (show 0 ≤ n by omega)
    have hfinite : (Double.ofInt m).isFinite = true :=
      (Double.nearestTo_ofInt (by omega) (by omega)).finite
    rw [if_neg hfits, if_neg hfits, Value.toJson, if_pos hfinite]

/-- The image of a document projects to what is kept of it. -/
theorem toJson_image {j : Json} (distinct : j.every distinctNames = true)
    (range : j.every inRange = true) : j.image.toJson = j.kept := by
  induction j using Json.induction with
  | primitive j hj =>
    rw [every_of_primitive hj] at range
    cases j with
    | int n => exact toJson_ofInt range
    | float x =>
      rw [inRange] at range
      rw [image, Value.toJson, if_pos range]
      rfl
    | list items => cases hj
    | object fields => cases hj
    | _ => rfl
  | list items =>
    rw [image_list, Value.toJson, Table.toJson_eq, kept]
    rfl
  | object fields ih =>
    rw [every_object_iff] at distinct range
    rw [image_object, Value.toJson, Table.toJson_eq,
      Table.textEntries_ofTexts (nodup_names distinct.1), kept_object, List.map_map]
    congr 1
    apply List.map_congr_left
    intro f hf
    exact congrArg (Prod.mk f.1) (ih f hf (distinct.2 f hf) (range.2 f hf))

theorem toJson_of_image {t : Table Value} {j : Json} (himage : .table 0 t.forget = j.image)
    (distinct : j.every distinctNames = true) (range : j.every inRange = true) :
    t.toJson = j.kept := by
  calc t.toJson = (Value.table 0 t.forget).toJson := t.toJson_forget.symm
    _ = j.kept := by rw [himage, toJson_image distinct range]

/-- A host value that stands for a document is lifted to a table with the document's projection. -/
theorem toJson_lifted {j : Json} (composite : j.isComposite = true)
    (distinct : j.every distinctNames = true) (range : j.every inRange = true) {h : Host}
    (hdecompose : h.decompose = Host.ofJson j) {limit : Nat} (depth : j.nesting ≤ limit)
    (next : Identity) :
    ∃ t next', h.liftTable limit next = .ok (t, next') ∧ t.toJson = j.kept := by
  obtain ⟨t, next', htable, -, himage⟩ := Host.lift_document hdecompose composite depth next
  exact ⟨t, next', htable, toJson_of_image himage distinct range⟩

/-- Passed structured or taken apart, a document within the limit is lifted and projects to what is
kept of it; that is the document itself when it has no list and no number beyond the signed range.
A number beyond that range is kept as the nearest float. -/
theorem kept_by_lifting {j : Json} (composite : j.isComposite = true)
    (distinct : j.every distinctNames = true) (range : j.every inRange = true) {limit : Nat}
    (depth : j.nesting ≤ limit) (next : Identity) :
    (∃ t next', (Host.structured j).liftTable limit next = .ok (t, next') ∧ t.toJson = j.kept) ∧
      (∃ t next', (Host.ofJson j).liftTable limit next = .ok (t, next') ∧ t.toJson = j.kept) ∧
      (j.every survives = true → j.kept = j) ∧
      ∀ n : Nat, 0x8000000000000000 ≤ n → n < 0x10000000000000000 →
        (int n).kept = .float (.ofInt n) ∧ (Double.ofInt n).NearestTo n := by
  refine ⟨toJson_lifted composite distinct range rfl depth next,
    toJson_lifted composite distinct range (decompose_ofJson j) depth next, kept_of_survives, ?_⟩
  intro n low high
  refine ⟨?_, Double.nearestTo_ofInt low high⟩
  have hfits : ¬Host.fitsInteger n = true := by
    rw [Host.fitsInteger, Bool.and_eq_true, decide_eq_true_eq, decide_eq_true_eq]
    omega
  rw [kept, if_neg hfits]

/-- At the limit: a list, a null, a negative zero and the greatest number without a sign. -/
theorem kept_by_lifting_at_limit :
    ∃ t next', (Host.structured (.object [("a", .list [.list [.int 1]]),
        ("b", .object [("c", .float ⟨0x8000000000000000⟩), ("d", .null)]),
        ("e", .int 18446744073709551615)])).liftTable 3 0 = .ok (t, next') ∧
      t.toJson = .object [("a", .object []),
        ("b", .object [("c", .float ⟨0x8000000000000000⟩), ("d", .null)]),
        ("e", .float ⟨0x43f0000000000000⟩)] :=
  (kept_by_lifting (by decide) (by decide) (by decide) (by decide) 0).1

end Json

end ScriptTable
