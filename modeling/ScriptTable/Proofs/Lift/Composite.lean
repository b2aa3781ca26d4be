import ScriptTable.Proofs.Json.Every
import ScriptTable.Proofs.Lift.Exact

/-!
The two conversions of a host value from the outside. What is composite becomes a table under both,
the same one within the same limit; a primitive passes through one and is refused by the other.
-/

namespace ScriptTable.Host

open Lift

/-- A structured primitive is a primitive. -/
theorem depth_pos {h : Host} (composite : h.decompose.isComposite = true) : 0 < h.depth := by
  rw [← h.depth_decompose]
  cases hd : h.decompose with
  | sequence items =>
    rw [depth]
    omega
  | map entries =>
    rw [depth]
    omega
  | structured j =>
    cases h with
    | structured j' =>
      cases j' with
      | int n =>
        simp only [decompose, ofJson, ofInt] at hd
        split at hd <;> cases hd
      | _ => cases hd
    | _ => cases hd
  | _ =>
    rw [hd] at composite
    cases composite

theorem guardDepth_zero (next : Identity) :
    Lift.guardDepth 0 1 next = .error (.depthExceeded 0) := rfl

theorem guardDepth_succ (limit : Nat) (next : Identity) :
    Lift.guardDepth (limit + 1) 1 next = .ok ((), next) := by
  rw [Lift.guardDepth, if_neg (by omega)]
  rfl

theorem liftTable_apply (limit : Nat) (h : Host) (next : Identity) :
    h.liftTable (limit + 1) next = match h.liftAt (limit + 1) 1 next with
      | .ok (.table t, next) => .ok (t, next)
      | .ok (.primitive _, _) => .error (.notComposite h.decompose.typeName)
      | .error e => .error e := by
  rw [liftTable, bind_apply, guardDepth_succ]
  simp only [bind_apply]
  rcases h.liftAt (limit + 1) 1 next with e | ⟨l, next'⟩
  · rfl
  · cases l <;> rfl

theorem liftTable_zero (h : Host) (next : Identity) :
    h.liftTable 0 next = .error (.depthExceeded 0) := by
  rw [liftTable, bind_apply, guardDepth_zero]

/-- Both conversions of a composite give one table, or refuse the same depth. -/
theorem lift_composite (h : Host) (composite : h.decompose.isComposite = true) (next : Identity) :
    ∃ t next', Value.table 0 t.forget = h.image ∧ ∀ limit,
      h.liftTable limit next =
          (if h.depth ≤ limit then .ok (t, next') else .error (.depthExceeded limit)) ∧
        h.liftValue limit next =
          (if h.depth ≤ limit then .ok (.table next' t, next' + 1)
            else .error (.depthExceeded limit)) := by
  obtain ⟨⟨l, next'⟩, hl, hrun⟩ := h.exact_liftAt next
  obtain ⟨t, rfl⟩ := hl.exists_table (by rw [h.isTable_image, composite])
  have himage : Value.table 0 t.forget = h.image := by
    generalize h.image = v at hl
    cases hl
    rfl
  have hlift : ∀ limit, h.liftAt limit 1 next =
      if h.depth ≤ limit then .ok (.table t, next') else .error (.depthExceeded limit) :=
    fun limit => hrun limit 1
  refine ⟨t, next', himage, fun limit => ⟨?_, ?_⟩⟩
  · cases limit with
    | zero =>
      have hpos := depth_pos composite
      rw [liftTable_zero, if_neg (by omega)]
    | succ limit =>
      rw [liftTable_apply, hlift]
      by_cases hdepth : h.depth ≤ limit + 1
      · rw [if_pos hdepth, if_pos hdepth]
      · rw [if_neg hdepth, if_neg hdepth]
  · rw [liftValue, bind_apply, hlift]
    by_cases hdepth : h.depth ≤ limit
    · rw [if_pos hdepth, if_pos hdepth]
      rfl
    · rw [if_neg hdepth, if_neg hdepth]

theorem lift_within {h : Host} (composite : h.decompose.isComposite = true) {limit : Nat}
    (within : h.depth ≤ limit) (next : Identity) :
    ∃ t next', h.liftTable limit next = .ok (t, next') ∧
      h.liftValue limit next = .ok (.table next' t, next' + 1) ∧
      Value.table 0 t.forget = h.image := by
  obtain ⟨t, next', himage, hrun⟩ := h.lift_composite composite next
  obtain ⟨htable, hvalue⟩ := hrun limit
  rw [if_pos within] at htable hvalue
  exact ⟨t, next', htable, hvalue, himage⟩

/-- A map is lifted to the table of its entries, or refused for its depth. -/
theorem lift_map (entries : List (Host × Host)) (next : Identity) :
    ∃ t next', t.forget = .ofPairs (imageEntries entries) ∧ ∀ limit,
      (map entries).liftTable limit next =
        if (map entries).depth ≤ limit then .ok (t, next') else .error (.depthExceeded limit) := by
  obtain ⟨t, next', himage, hrun⟩ := (map entries).lift_composite rfl next
  exact ⟨t, next', (Value.table.inj himage).2, fun limit => (hrun limit).1⟩

theorem liftTable_map_ok_iff (limit : Nat) (entries : List (Host × Host)) (next : Identity) :
    (∃ t next', (map entries).liftTable (limit + 1) next = .ok (t, next')) ↔ ∀ e ∈ entries,
      e.1.depth ≤ limit ∧ (e.1.decompose.isComposite = false → e.2.depth ≤ limit) := by
  obtain ⟨t, next', -, hrun⟩ := lift_map entries next
  rw [hrun, ← depth_map_le_iff]
  by_cases within : (map entries).depth ≤ limit + 1
  · rw [if_pos within]
    exact ⟨fun _ => within, fun _ => ⟨t, next', rfl⟩⟩
  · rw [if_neg within]
    constructor
    · rintro ⟨u, m, h⟩
      cases h
    · intro h
      exact absurd h within

theorem depth_of_document {h : Host} {j : Json} (document : h.decompose = ofJson j) :
    h.depth = j.nesting := by
  rw [← h.depth_decompose, document, depth_ofJson]

theorem image_of_document {h : Host} {j : Json} (document : h.decompose = ofJson j) :
    h.image = j.image := by
  rw [← h.image_decompose, document, image_ofJson]

theorem lift_document {h : Host} {j : Json} (document : h.decompose = ofJson j)
    (composite : j.isComposite = true) {limit : Nat} (within : j.nesting ≤ limit)
    (next : Identity) :
    ∃ t next', h.liftTable limit next = .ok (t, next') ∧
      h.liftValue limit next = .ok (.table next' t, next' + 1) ∧
      Value.table 0 t.forget = j.image := by
  rw [← depth_of_document document] at within
  rw [← image_of_document document]
  exact lift_within (by rw [document, Json.isComposite_ofJson, composite]) within next

theorem liftAt_primitive {h : Host} (primitive : h.decompose.isComposite = false)
    (limit depth : Nat) (next : Identity) :
    h.liftAt limit depth next = .ok (.primitive h.image, next) := by
  cases h with
  | sequence items => cases primitive
  | map entries => cases primitive
  | structured j =>
    cases j with
    | list items => cases primitive
    | object fields => cases primitive
    | _ => rfl
  | _ => rfl

/-- A primitive, structured or not, passes through at any limit and has no table. -/
theorem lift_primitive (h : Host) (primitive : h.decompose.isComposite = false) (limit : Nat)
    (next : Identity) :
    h.liftTable limit next = .error
        (if limit = 0 then .depthExceeded 0 else .notComposite h.decompose.typeName) ∧
      h.liftValue limit next = .ok (h.image, next) := by
  constructor
  · cases limit with
    | zero => rw [liftTable_zero, if_pos rfl]
    | succ limit => rw [liftTable_apply, liftAt_primitive primitive, if_neg (by omega)]
  · rw [liftValue, bind_apply, liftAt_primitive primitive]
    rfl

end ScriptTable.Host
