import ScriptTable.Proofs.Host.Image
import ScriptTable.Proofs.Json.Every
import ScriptTable.Proofs.Value.Inside

/-!
Tables whose keys are all texts. Writing named values into an empty table gives such a table, and
with distinct names it holds exactly those entries in their order; the table of an object is one.
-/

namespace ScriptTable

variable {V : Type}

/-- The table that holds named values and nothing else. -/
def Table.ofTexts (es : List (String × V)) : Table V := { empty with texts := .ofEntries es }

theorem Table.ofPairs_texts (es : List (String × Value)) :
    ofPairs (es.map fun e => (.text e.1, e.2)) = ofTexts es := by
  induction es using List.reverseRecOn with
  | nil => rfl
  | append_singleton es e ih =>
    have hstep : ofPairs ((es ++ [e]).map fun e => (.text e.1, e.2)) =
        (ofPairs (es.map fun e => (.text e.1, e.2))).set (.text e.1) e.2 := by
      simp [ofPairs]
    rw [hstep, ih, ofTexts, ofTexts, Ordered.ofEntries_concat]
    rfl

theorem Table.textEntries_ofTexts {es : List (String × V)} (nodup : (es.map Prod.fst).Nodup) :
    (ofTexts es).textEntries = es :=
  Ordered.entries_ofEntries nodup

theorem Table.contents_ofTexts {es : List (String × V)} (nodup : (es.map Prod.fst).Nodup) :
    (ofTexts es).contents = es.map Prod.snd := by
  simp [contents, ofTexts, empty, (Ordered.toList_ofEntries nodup).2]

namespace Json

theorem imageItems_eq_map (items : List Json) : imageItems items = items.map image := by
  induction items with
  | nil => rfl
  | cons j rest ih => rw [imageItems, ih, List.map_cons]

theorem image_list (items : List Json) :
    (list items).image = .table 0 (.positional (items.map image)) := by
  rw [image, imageItems_eq_map]

theorem image_object (fields : List (String × Json)) :
    (object fields).image = .table 0 (.ofTexts (fields.map fun f => (f.1, f.2.image))) := by
  have hfields : imageFields fields =
      (fields.map fun f => (f.1, f.2.image)).map fun e => (.text e.1, e.2) := by
    induction fields with
    | nil => rfl
    | cons f rest ih => rw [imageFields, ih, List.map_cons, List.map_cons]
  rw [image, hfields, Table.ofPairs_texts]

/-- The entries of an object's table have its names. -/
theorem nodup_names {fields : List (String × Json)} (h : distinctNames (.object fields) = true) :
    ((fields.map fun f => (f.1, f.2.image)).map Prod.fst).Nodup := by
  rw [distinctNames, decide_eq_true_eq] at h
  rwa [List.map_map]

end Json

end ScriptTable
