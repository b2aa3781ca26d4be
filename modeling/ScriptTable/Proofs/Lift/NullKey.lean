import ScriptTable.Proofs.Lift.InPlace
import ScriptTable.Proofs.Lift.Outcome

/-!
Entries that have no key. A composite key is passed over with its value unseen; under a null key the
value is lifted first and dropped afterwards, so it may still be refused for its depth. Beyond that an
entry of either sort changes nothing, wherever in a map it stands.
-/

namespace ScriptTable

theorem Table.ofPairs_none (pre post : List (Value × Value)) (v : Value) :
    ofPairs (pre ++ (.none, v) :: post) = ofPairs (pre ++ post) := by
  rw [ofPairs, ofPairs, List.foldl_append, List.foldl_append]
  rfl

namespace Host

/-- A key that stands for none: null, by itself or as a document. -/
def IsNull (key : Host) : Prop := key = .null ∨ key = .structured .null

variable {key : Host}

theorem isNull_iff_image : key.IsNull ↔ key.image = .none := by
  cases key with
  | structured j =>
    cases j with
    | int n =>
      simp only [IsNull, image, Json.image, Value.ofInt]
      split <;> simp
    | _ => simp [IsNull, image, Json.image]
  | _ => simp [IsNull, image]

theorem IsNull.primitive (null : key.IsNull) : key.decompose.isComposite = false := by
  rw [← isTable_image, isNull_iff_image.mp null]
  rfl

theorem depth_insert_le_iff (pre post : List (Host × Host)) (key value : Host) (limit : Nat) :
    (map (pre ++ (key, value) :: post)).depth ≤ limit ↔
      (key.depth < limit ∧ (key.decompose.isComposite = false → value.depth < limit)) ∧
        (map (pre ++ post)).depth ≤ limit := by
  cases limit with
  | zero =>
    rw [depth, depth]
    omega
  | succ limit =>
    rw [depth_map_le_iff, depth_map_le_iff, List.forall_mem_append, List.forall_mem_cons,
      List.forall_mem_append, Nat.lt_succ_iff, Nat.lt_succ_iff]
    tauto

/-- Null or composite, a key that is none of an ordered partition brings no entry. -/
theorem image_insert_of_unkeyed (unkeyed : key.image.toKey? = none) (pre post : List (Host × Host))
    (value : Host) : (map (pre ++ (key, value) :: post)).image = (map (pre ++ post)).image := by
  rw [image, image, imageEntries_append, imageEntries_append, imageEntries]
  split
  · rfl
  · rename_i primitive
    rw [← isTable_image] at primitive
    have hnone : key.image = .none := by
      cases himage : key.image with
      | none => rfl
      | table i t =>
        rw [himage] at primitive
        exact absurd rfl primitive
      | _ =>
        rw [himage] at unkeyed
        cases unkeyed
    rw [hnone, Table.ofPairs_none]

/-- With the entry, whichever way it is lifted, the map has the outcome that it has without, or it is
refused for what is looked at in the entry. -/
theorem outcome_insert_of_unkeyed (unkeyed : key.image.toKey? = none) (pre post : List (Host × Host))
    (value : Host) (limit : Nat) (next next' : Identity) :
    let withEntry := map (pre ++ (key, value) :: post)
    let without := map (pre ++ post)
    if key.depth < limit ∧ (key.decompose.isComposite = false → value.depth < limit) then
      withEntry.tableOutcome limit next = without.tableOutcome limit next' ∧
        withEntry.valueOutcome limit next = without.valueOutcome limit next'
    else
      withEntry.tableOutcome limit next = .error (.depthExceeded limit) ∧
        withEntry.valueOutcome limit next = .error (.depthExceeded limit) := by
  intro withEntry without
  have himage := image_insert_of_unkeyed unkeyed pre post value
  have hdepth := depth_insert_le_iff pre post key value limit
  obtain ⟨t, ht⟩ := exists_image_eq_table (h := without) rfl
  rw [valueOutcome_eq, valueOutcome_eq, tableOutcome_of_composite rfl (himage.trans ht),
    tableOutcome_of_composite rfl ht]
  split
  · rename_i seen
    have hsame : withEntry.depth ≤ limit ↔ without.depth ≤ limit :=
      hdepth.trans (and_iff_right seen)
    have himages : withEntry.image = without.image := himage
    rw [himages]
    exact ⟨if_congr hsame rfl rfl, if_congr hsame rfl rfl⟩
  · rename_i unseen
    have hdeep : ¬withEntry.depth ≤ limit := fun h => unseen (hdepth.mp h).1
    rw [if_neg hdeep, if_neg hdeep]
    exact ⟨rfl, rfl⟩

/-- An entry at this place in a map changes nothing, whichever way the map is lifted. -/
def Ignored (limit : Nat) (pre : List (Host × Host)) (entry : Host × Host)
    (post : List (Host × Host)) : Prop :=
  ∀ next next',
    (map (pre ++ entry :: post)).tableOutcome limit next =
        (map (pre ++ post)).tableOutcome limit next' ∧
      (map (pre ++ entry :: post)).valueOutcome limit next =
        (map (pre ++ post)).valueOutcome limit next'

theorem ignored_iff_of_unkeyed (unkeyed : key.image.toKey? = none) (pre post : List (Host × Host))
    (value : Host) (limit : Nat) :
    Ignored limit pre (key, value) post ↔
      (key.depth < limit ∧ (key.decompose.isComposite = false → value.depth < limit)) ∨
        limit < (map (pre ++ post)).depth := by
  have houtcome := outcome_insert_of_unkeyed unkeyed pre post value limit
  by_cases seen : key.depth < limit ∧ (key.decompose.isComposite = false → value.depth < limit)
  · simp only [if_pos seen] at houtcome
    exact ⟨fun _ => .inl seen, fun _ => houtcome⟩
  · simp only [if_neg seen] at houtcome
    constructor
    · intro ignored
      have hsame := (ignored 0 0).2
      rw [(houtcome 0 0).2, valueOutcome_eq] at hsame
      split at hsame
      · cases hsame
      · exact .inr (by omega)
    · rintro (h | deeper) next next'
      · exact absurd h seen
      · obtain ⟨t, ht⟩ := exists_image_eq_table (h := map (pre ++ post)) rfl
        rw [(houtcome next next').1, (houtcome next next').2, tableOutcome_of_composite rfl ht,
          valueOutcome_eq, if_neg (by omega), if_neg (by omega)]
        exact ⟨rfl, rfl⟩

/-- Under a composite key the value does not matter. -/
theorem composite_key_ignored (composite : key.decompose.isComposite = true) {limit : Nat}
    (within : key.depth < limit) (pre post : List (Host × Host)) (value : Host) :
    Ignored limit pre (key, value) post := by
  obtain ⟨t, himage⟩ := exists_image_eq_table composite
  rw [ignored_iff_of_unkeyed (by rw [himage]; rfl)]
  exact .inl ⟨within, fun primitive => by rw [composite] at primitive; cases primitive⟩

/-- Under a null key it does, though none of it stays. -/
theorem not_ignored_at_limit : null.IsNull ∧ ¬Ignored 1 [] (null, sequence []) [] := by
  refine ⟨.inl rfl, ?_⟩
  intro ignored
  cases (ignored 0 0).1

/-- The step in place: a null key leaves the table as it is. The answer is that of lifting the value. -/
theorem IsNull.setHost (null : key.IsNull) (value : Host) (limit : Nat) (t : Table Value)
    (next : Identity) :
    (t.setHost limit key value next).map Prod.fst =
      if value.depth ≤ limit then .ok t else .error (.depthExceeded limit) := by
  obtain ⟨v, next', -, hvalue⟩ := value.liftValue_eq next
  rw [Table.setHost, Lift.bind_apply, (lift_primitive key null.primitive limit next).2,
    isNull_iff_image.mp null]
  dsimp only
  rw [Lift.bind_apply, hvalue]
  by_cases within : value.depth ≤ limit
  · rw [if_pos within, if_pos within]
    rfl
  · rw [if_neg within, if_neg within]
    rfl

theorem IsNull.exec_setHost (null : key.IsNull) (value : Host) (limit : Nat) (s : Held) :
    ((InPlace.setHost limit key value).exec s).2.table = s.table := by
  have hpure := null.setHost value limit s.table s.next
  have hsame := InPlace.exec_setHost_eq limit key value s
  cases hexec : s.table.setHost limit key value s.next with
  | ok r =>
    obtain ⟨t, next⟩ := r
    rw [hexec] at hpure hsame
    split at hpure <;> cases hpure
    rw [hsame]
  | error e =>
    rw [hexec] at hsame
    exact (InPlace.setHost_failed (Prod.ext hsame rfl)).1

/-- An entry with a null key changes nothing in a map, wherever it stands, unless its value is too deep
where the map alone is not; then the map is refused. Written to a table under a null key, no value
stays, but one that is too deep is refused. -/
theorem null_key_entry {key : Host} (null : key.IsNull) (value : Host) (limit : Nat) :
    (∀ pre post,
      Ignored limit pre (key, value) post ↔
        value.depth < limit ∨ limit < (map (pre ++ post)).depth) ∧
    (∀ pre post next, ¬value.depth < limit →
      (map (pre ++ (key, value) :: post)).tableOutcome limit next = .error (.depthExceeded limit) ∧
      (map (pre ++ (key, value) :: post)).valueOutcome limit next = .error (.depthExceeded limit)) ∧
    (∀ (t : Table Value) next, (t.setHost limit key value next).map Prod.fst =
      if value.depth ≤ limit then .ok t else .error (.depthExceeded limit)) ∧
    (∀ s : Held, ((InPlace.setHost limit key value).exec s).2.table = s.table) ∧
    ∀ (t : Table Value) (v : Value), t.set .none v = t ∧ t.rawSet .none v = t := by
  have unkeyed : key.image.toKey? = none := by rw [isNull_iff_image.mp null, Value.toKey?]
  have hseen : (key.depth < limit ∧ (key.decompose.isComposite = false → value.depth < limit)) ↔
      value.depth < limit := by
    rw [depth_of_primitive null.primitive, forall_prop_of_true null.primitive]
    omega
  refine ⟨?_, ?_, fun t next => null.setHost value limit t next,
    fun s => null.exec_setHost value limit s, fun t v => ⟨rfl, rfl⟩⟩
  · intro pre post
    rw [ignored_iff_of_unkeyed unkeyed, hseen]
  · intro pre post next deep
    have houtcome := outcome_insert_of_unkeyed unkeyed pre post value limit next next
    rwa [if_neg (mt hseen.mp deep)] at houtcome

/-- A structured null before the second entry, its value as deep as the limit lets it be and a level
deeper. -/
theorem null_key_entry_of_document :
    Ignored 2 [(.text "a", .integer 1)] (.structured .null, .sequence []) [(.null, .null)] ∧
      ¬Ignored 1 [(.text "a", .integer 1)] (.structured .null, .sequence []) [(.null, .null)] :=
  ⟨((null_key_entry (.inr rfl) _ 2).1 _ _).mpr (by decide),
    fun ignored => absurd (((null_key_entry (.inr rfl) _ 1).1 _ _).mp ignored) (by decide)⟩

end Host

end ScriptTable
