import ScriptTable.Proofs.Projection.Kept
import ScriptTable.Proofs.Table.Reachable

/-!
A table projected to a document and lifted again. A projection holds objects, whole numbers of 64
bits with a sign and finite floats only, and all of these survive: so it is projected again from the
lifted table. A table of text keys alone comes back whole, since its entries, written in their order,
make the same partition.
-/

namespace ScriptTable

namespace Json

/-- What a projection consists of. -/
def projected : Json → Bool
  | .list _ => false
  | .int n => Host.fitsInteger n
  | .float x => x.isFinite
  | .object fields => decide (fields.map Prod.fst).Nodup
  | _ => true

theorem every_mono {p q : Json → Bool} (h : ∀ j, p j = true → q j = true) {j : Json}
    (hj : j.every p = true) : j.every q = true := by
  induction j using Json.induction with
  | primitive j hprimitive =>
    rw [every_of_primitive hprimitive] at hj ⊢
    exact h j hj
  | list items ih =>
    rw [every_list_iff] at hj ⊢
    exact ⟨h _ hj.1, fun j hmem => ih j hmem (hj.2 j hmem)⟩
  | object fields ih =>
    rw [every_object_iff] at hj ⊢
    exact ⟨h _ hj.1, fun f hmem => ih f hmem (hj.2 f hmem)⟩

theorem projected_spec {j : Json} (h : j.projected = true) :
    j.distinctNames = true ∧ j.inRange = true ∧ j.survives = true := by
  cases j with
  | list items => cases h
  | int n =>
    refine ⟨rfl, ?_, h⟩
    simp only [projected, Host.fitsInteger, Bool.and_eq_true, decide_eq_true_eq] at h
    simp only [inRange, Bool.and_eq_true, decide_eq_true_eq]
    omega
  | float x => exact ⟨rfl, h, rfl⟩
  | object fields => exact ⟨h, rfl, rfl⟩
  | _ => exact ⟨rfl, rfl, rfl⟩

/-- Lifted and projected again, such a document is unchanged. -/
theorem toJson_image_of_projected {j : Json} (h : j.every projected = true) :
    j.image.toJson = j := by
  have distinct := every_mono (fun j hj => (projected_spec hj).1) h
  have range := every_mono (fun j hj => (projected_spec hj).2.1) h
  have survives := every_mono (fun j hj => (projected_spec hj).2.2) h
  rw [toJson_image distinct range, kept_of_survives survives]

end Json

namespace Table

theorem WellFormed.nodup_textEntries {t : Table Value} (wf : t.WellFormed) :
    (t.textEntries.map Prod.fst).Nodup := by
  rw [textEntries, wf.texts.entries_keys]
  exact wf.texts.nodup

theorem Reachable.every_toJson {t : Table Value} (h : t.Reachable) :
    t.toJson.every Json.projected = true := by
  induction t using Table.induction with
  | step t ih =>
    rw [toJson_eq, Json.every_object_iff, List.forall_mem_map]
    constructor
    · rw [Json.projected, decide_eq_true_eq, List.map_map]
      exact h.wellFormed.nodup_textEntries
    · rintro ⟨name, v⟩ hv
      have hmem := mem_contents_of_textEntries hv
      have hreachable := h.contents _ hmem
      cases hreachable with
      | none => rfl
      | integer hfits => exact hfits
      | float x =>
        change (if x.isFinite = true then Json.float x else .null).every _ = true
        split
        · assumption
        · rfl
      | boolean b => rfl
      | text s => rfl
      | table i hu => exact ih i _ hmem hu

/-- Text keys only, and no float but finite ones. -/
structure Textual (t : Table Value) : Prop where
  integers : t.integers.isEmpty = true
  floats : t.floats.isEmpty = true
  booleans : t.booleans.isEmpty = true
  fallback : t.fallback.isEmpty = true
  finite : ∀ x, Value.float x ∈ t.contents → x.isFinite = true

theorem Textual.eq_texts {t : Table Value} (h : t.Textual) (wf : t.WellFormed) :
    t = { empty with texts := t.texts } := by
  have hintegers := wf.integers.eq_empty h.integers
  have hfloats := wf.floats.eq_empty h.floats
  have hbooleans := wf.booleans.eq_empty h.booleans
  have hfallback := wf.fallback.eq_empty h.fallback
  obtain ⟨integers, floats, texts, booleans, fallback⟩ := t
  simp only at hintegers hfloats hbooleans hfallback
  rw [hintegers, hfloats, hbooleans, hfallback]
  rfl

/-- The image of the projection is the table without its identities. -/
theorem Textual.image_toJson {t : Table Value} (reachable : t.Reachable)
    (h : ∀ u : Table Value, u.Inside t → u.Textual) : t.toJson.image = .table 0 t.forget := by
  induction t using Table.induction with
  | step t ih =>
    obtain ⟨htextual, hstored⟩ := forall_inside_iff.mp h
    have hentries : (t.textEntries.map fun e => (e.1, e.2.toJson)).map
        (fun f => (f.1, f.2.image)) = t.forget.textEntries := by
      rw [textEntries_forget, List.map_map]
      apply List.map_congr_left
      rintro ⟨name, v⟩ hv
      have hmem := mem_contents_of_textEntries hv
      refine congrArg (Prod.mk name) ?_
      cases reachable.contents _ hmem with
      | none => rfl
      | integer hfits => exact if_pos hfits
      | float x =>
        change (if x.isFinite = true then Json.float x else .null).image = _
        rw [if_pos (htextual.finite x hmem)]
        rfl
      | boolean b => rfl
      | text s => rfl
      | table i hu => exact ih i _ hmem hu (hstored i _ hmem)
    have htexts : t.forget = { empty with texts := t.texts.map Value.forget } := by
      rw [htextual.eq_texts reachable.wellFormed, forget_eq_map]
      simp [map, empty, Sorted.map, Sorted.empty, Ordered.map, Ordered.empty, Fallback.map]
    have hrebuilt : Ordered.ofEntries t.forget.textEntries = t.texts.map Value.forget := by
      rw [htexts]
      exact (Ordered.wellFormed_map_iff.mpr reachable.wellFormed.texts).ofEntries_entries
    rw [toJson_eq, Json.image_object, hentries, ofTexts, hrebuilt, htexts]

/-- The projection of a table, with enough levels, is lifted to a table of the same projection,
whatever else the table holds; and if it holds nothing else, to the table itself up to identities. -/
theorem lift_toJson {t : Table Value} (reachable : t.Reachable) {limit : Nat}
    (depth : t.toJson.nesting ≤ limit) (next : Identity) :
    ∃ u next', (Host.structured t.toJson).liftTable limit next = .ok (u, next') ∧
      (Host.structured t.toJson).liftValue limit next = .ok (.table next' u, next' + 1) ∧
      u.toJson = t.toJson ∧
      ((∀ w : Table Value, w.Inside t → w.Textual) → u.forget = t.forget) := by
  have hcomposite : (Host.structured t.toJson).decompose.isComposite = true := by
    rw [toJson_eq]
    rfl
  obtain ⟨u, next', htable, hvalue, himage⟩ := Host.lift_within hcomposite depth next
  have hprojection : u.toJson = t.toJson := by
    calc u.toJson = (Value.table 0 u.forget).toJson := u.toJson_forget.symm
      _ = t.toJson.image.toJson := by rw [himage, Host.image]
      _ = t.toJson := Json.toJson_image_of_projected reachable.every_toJson
  refine ⟨u, next', htable, hvalue, hprojection, fun textual => ?_⟩
  have hsame : Value.table 0 u.forget = .table 0 t.forget := by
    rw [himage, Host.image, Textual.image_toJson reachable textual]
  exact (Value.table.inj hsame).2

/-- A table under a text, with a negative zero under a text of its own. -/
theorem lift_toJson_of_nested :
    let inner := ofTexts [("b", .float ⟨0x8000000000000000⟩)]
    let t := ofTexts [("a", .table 4 inner)]
    ∃ u next', (Host.structured t.toJson).liftTable 2 7 = .ok (u, next') ∧
      u.toJson = t.toJson ∧ u.forget = t.forget := by
  intro inner t
  have hzero : (Double.mk 0x8000000000000000).isFinite = true := by decide
  have hinner : inner.contents = [.float ⟨0x8000000000000000⟩] :=
    contents_ofTexts (List.nodup_singleton _)
  have ht : t.contents = [.table 4 inner] := contents_ofTexts (List.nodup_singleton _)
  have hreachable : t.Reachable := by
    refine .ofTexts (List.forall_mem_singleton.mpr (.table 4 ?_))
    exact .ofTexts (List.forall_mem_singleton.mpr (.float _))
  have hdepth : t.toJson.nesting ≤ 2 := by
    simp [t, inner, toJson_eq, textEntries_ofTexts, Value.toJson, hzero, Json.nesting,
      Json.nestingFields]
  have htextual : ∀ w : Table Value, w.Inside t → w.Textual := by
    refine forall_inside_iff.mpr ⟨⟨rfl, rfl, rfl, rfl, by simp [ht]⟩, ?_⟩
    intro i w hw
    rw [ht, List.mem_singleton] at hw
    obtain ⟨-, rfl⟩ := Value.table.inj hw
    refine forall_inside_iff.mpr ⟨⟨rfl, rfl, rfl, rfl, ?_⟩, by simp [hinner]⟩
    simpa [hinner] using hzero
  obtain ⟨u, next', htable, -, hprojection, hsame⟩ := lift_toJson hreachable hdepth 7
  exact ⟨u, next', htable, hprojection, hsame htextual⟩

end Table

end ScriptTable
