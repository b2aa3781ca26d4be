import ScriptTable.Proofs.Lift.Outcome

/-!
Documents inside host values, taken apart beforehand or left to the conversion. Any of the structured
values in a tree may be replaced by the host values that they decompose to: every conversion of the
tree makes the same steps, so it gives the same result or the same error.
-/

namespace ScriptTable.Host

open Lift

mutual

/-- `h.TakenApart h'`: some of the structured values in `h`, all of them or none, are replaced in
`h'` by their decompositions. -/
inductive TakenApart : Host → Host → Prop where
  | same (h : Host) : TakenApart h h
  | structured (j : Json) : TakenApart (.structured j) (ofJson j)
  | sequence {items items' : List Host} (h : TakenApartItems items items') :
      TakenApart (.sequence items) (.sequence items')
  | map {entries entries' : List (Host × Host)} (h : TakenApartEntries entries entries') :
      TakenApart (.map entries) (.map entries')

inductive TakenApartItems : List Host → List Host → Prop where
  | nil : TakenApartItems [] []
  | cons {h h' : Host} {rest rest' : List Host} (head : TakenApart h h')
      (tail : TakenApartItems rest rest') : TakenApartItems (h :: rest) (h' :: rest')

/-- Keys as well as values. -/
inductive TakenApartEntries : List (Host × Host) → List (Host × Host) → Prop where
  | nil : TakenApartEntries [] []
  | cons {k k' h h' : Host} {rest rest' : List (Host × Host)} (key : TakenApart k k')
      (value : TakenApart h h') (tail : TakenApartEntries rest rest') :
      TakenApartEntries ((k, h) :: rest) ((k', h') :: rest')

end

mutual

/-- A document is lifted as the host value that it decomposes to. -/
theorem liftAt_ofJson (limit depth : Nat) (j : Json) :
    (ofJson j).liftAt limit depth = j.liftAt limit depth := by
  cases j with
  | int n =>
    rw [ofJson, ofInt, Json.liftAt, Value.ofInt]
    split <;> rfl
  | list items =>
    rw [ofJson, liftAt, Json.liftAt, liftItems_ofItems limit (depth + 1) items]
  | object fields =>
    rw [ofJson, liftAt, Json.liftAt, liftEntries_ofFields limit (depth + 1) fields]
  | _ => rfl

theorem liftItems_ofItems (limit depth : Nat) (items : List Json) :
    liftItems limit depth (ofItems items) = Json.liftItems limit depth items := by
  funext i t
  match items with
  | [] => rfl
  | j :: rest =>
    rw [ofItems, liftItems, Json.liftItems, liftAt_ofJson limit depth j,
      liftItems_ofItems limit depth rest]

theorem liftEntries_ofFields (limit depth : Nat) (fields : List (String × Json)) :
    liftEntries limit depth (ofFields fields) = Json.liftFields limit depth fields := by
  funext t
  match fields with
  | [] => rfl
  | (name, j) :: rest =>
    rw [ofFields, liftEntries, Json.liftFields, liftAt_ofJson limit depth j,
      liftEntries_ofFields limit depth rest]
    rfl

end

mutual

/-- Step by step the same conversion. -/
theorem TakenApart.liftAt_eq {h h' : Host} (apart : h.TakenApart h') (limit depth : Nat) :
    h.liftAt limit depth = h'.liftAt limit depth := by
  match apart with
  | .same h => rfl
  | .structured j => exact (liftAt_ofJson limit depth j).symm
  | .sequence items => rw [liftAt, liftAt, items.liftItems_eq limit (depth + 1)]
  | .map entries => rw [liftAt, liftAt, entries.liftEntries_eq limit (depth + 1)]

theorem TakenApartItems.liftItems_eq {items items' : List Host}
    (apart : TakenApartItems items items') (limit depth : Nat) :
    liftItems limit depth items = liftItems limit depth items' := by
  funext i t
  match apart with
  | .nil => rfl
  | .cons head tail =>
    rw [liftItems, liftItems, head.liftAt_eq limit depth, tail.liftItems_eq limit depth]

theorem TakenApartEntries.liftEntries_eq {entries entries' : List (Host × Host)}
    (apart : TakenApartEntries entries entries') (limit depth : Nat) :
    liftEntries limit depth entries = liftEntries limit depth entries' := by
  funext t
  match apart with
  | .nil => rfl
  | .cons key value tail =>
    rw [liftEntries, liftEntries, key.liftAt_eq limit depth, value.liftAt_eq limit depth,
      tail.liftEntries_eq limit depth]

end

/-- Also the name that a primitive is refused by. -/
theorem TakenApart.typeName_decompose {h h' : Host} (apart : h.TakenApart h') :
    h.decompose.typeName = h'.decompose.typeName := by
  cases apart with
  | same => rfl
  | structured j => rw [decompose, Json.decompose_ofJson]
  | sequence items => rfl
  | map entries => rfl

theorem TakenApart.liftValue_eq {h h' : Host} (apart : h.TakenApart h') (limit : Nat) :
    h.liftValue limit = h'.liftValue limit := by
  rw [liftValue, liftValue, apart.liftAt_eq]

theorem TakenApart.liftTable_eq {h h' : Host} (apart : h.TakenApart h') (limit : Nat) :
    h.liftTable limit = h'.liftTable limit := by
  rw [liftTable, liftTable, apart.liftAt_eq, apart.typeName_decompose]

/-- The outcome does not depend on where the counter starts. -/
theorem outcome_counter (h : Host) (limit : Nat) (next next' : Identity) :
    h.valueOutcome limit next = h.valueOutcome limit next' ∧
      h.tableOutcome limit next = h.tableOutcome limit next' :=
  ⟨by rw [valueOutcome_eq, valueOutcome_eq], tableOutcome_congr rfl rfl rfl limit next next'⟩

/-- Whichever structured values are taken apart beforehand, both conversions give the same results
and the same errors under every limit: identities included from one counter, and up to identities
from any two. -/
theorem lift_takenApart {h h' : Host} (apart : h.TakenApart h') (limit : Nat)
    (next next' : Identity) :
    h.liftValue limit next = h'.liftValue limit next ∧
      h.liftTable limit next = h'.liftTable limit next ∧
      h.valueOutcome limit next = h'.valueOutcome limit next' ∧
      h.tableOutcome limit next = h'.tableOutcome limit next' := by
  obtain ⟨hvalue, htable⟩ := h'.outcome_counter limit next next'
  rw [← hvalue, ← htable, valueOutcome, valueOutcome, tableOutcome, tableOutcome,
    apart.liftValue_eq, apart.liftTable_eq]
  exact ⟨rfl, rfl, rfl, rfl⟩

/-- A key that is composite only once it is taken apart, over a value too deep for the limit, and a
key that is not beside a value that is. -/
theorem lift_takenApart_of_keys :
    let deep := sequence [.sequence [.sequence []]]
    let h := map [(.structured (.list []), deep),
      (.structured (.text "a"), .structured (.list [.int 1]))]
    let h' := map [(.sequence [], deep), (.structured (.text "a"), .sequence [.integer 1])]
    h.TakenApart h' ∧ h.liftTable 2 5 = h'.liftTable 2 5 ∧
      h.tableOutcome 2 5 = h'.tableOutcome 2 9 := by
  intro deep h h'
  have apart : h.TakenApart h' :=
    .map (.cons (.structured (.list [])) (.same deep)
      (.cons (.same _) (.structured (.list [.int 1])) .nil))
  obtain ⟨-, htable, -, houtcome⟩ := lift_takenApart apart 2 5 9
  exact ⟨apart, htable, houtcome⟩

end ScriptTable.Host
