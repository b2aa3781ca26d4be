import ScriptTable.Host
import ScriptTable.Lift
import ScriptTable.Proofs.Table.Positional

/-!
What a host value stands for as a script value, and how deep a conversion has to look into it. An
entry whose key is composite contributes the depth of its key and nothing else. A structured value
stands for its decomposition and is as deep.
-/

namespace ScriptTable

mutual

/-- The value of a document, every table under the identity 0. -/
def Json.image : Json → Value
  | .null => .none
  | .bool b => .boolean b
  | .int n => .ofInt n
  | .float x => .float x
  | .text s => .text s
  | .list items => .table 0 (.positional (Json.imageItems items))
  | .object fields => .table 0 (.ofPairs (Json.imageFields fields))

def Json.imageItems : List Json → List Value
  | [] => []
  | j :: rest => j.image :: Json.imageItems rest

def Json.imageFields : List (String × Json) → List (Value × Value)
  | [] => []
  | (name, j) :: rest => (.text name, j.image) :: Json.imageFields rest

end

mutual

/-- The value of a host value, every table under the identity 0. -/
def Host.image : Host → Value
  | .null => .none
  | .integer n => .integer n
  | .float x => .float x
  | .boolean b => .boolean b
  | .text s => .text s
  | .sequence items => .table 0 (.positional (Host.imageItems items))
  | .map entries => .table 0 (.ofPairs (Host.imageEntries entries))
  | .structured j => j.image

def Host.imageItems : List Host → List Value
  | [] => []
  | h :: rest => h.image :: Host.imageItems rest

def Host.imageEntries : List (Host × Host) → List (Value × Value)
  | [] => []
  | (k, h) :: rest =>
    if k.decompose.isComposite then Host.imageEntries rest
    else (k.image, h.image) :: Host.imageEntries rest

end

mutual

/-- How many composites are nested in each other where a conversion looks. -/
def Host.depth : Host → Nat
  | .sequence items => 1 + Host.depthItems items
  | .map entries => 1 + Host.depthEntries entries
  | .structured j => j.nesting
  | _ => 0

def Host.depthItems : List Host → Nat
  | [] => 0
  | h :: rest => max h.depth (Host.depthItems rest)

def Host.depthEntries : List (Host × Host) → Nat
  | [] => 0
  | (k, h) :: rest =>
    max (max k.depth (if k.decompose.isComposite then 0 else h.depth)) (Host.depthEntries rest)

end

namespace Host

theorem image_ofInt (n : Int) : (ofInt n).image = .ofInt n := by
  rw [ofInt, Value.ofInt]
  split <;> rfl

theorem depth_ofInt (n : Int) : (ofInt n).depth = 0 := by
  rw [ofInt]
  split <;> rfl

/-- The tables are the images of the composites. -/
theorem isTable_image (h : Host) : h.image.isTable = h.decompose.isComposite := by
  cases h with
  | structured j =>
    cases j with
    | int n =>
      simp only [image, Json.image, decompose, ofJson, Value.ofInt, ofInt]
      split <;> rfl
    | _ => rfl
  | _ => rfl

mutual

theorem image_ofJson (j : Json) : (ofJson j).image = j.image := by
  cases j with
  | int n => exact image_ofInt n
  | list items => rw [ofJson, image, imageItems_ofItems items, Json.image]
  | object fields => rw [ofJson, image, imageEntries_ofFields fields, Json.image]
  | _ => rfl

theorem imageItems_ofItems (items : List Json) :
    imageItems (ofItems items) = Json.imageItems items := by
  cases items with
  | nil => rfl
  | cons j rest =>
    rw [ofItems, imageItems, image_ofJson j, imageItems_ofItems rest, Json.imageItems]

theorem imageEntries_ofFields (fields : List (String × Json)) :
    imageEntries (ofFields fields) = Json.imageFields fields := by
  match fields with
  | [] => rfl
  | (name, j) :: rest =>
    have hkey : ¬(text name).decompose.isComposite = true := by simp [decompose, isComposite]
    rw [ofFields, imageEntries, if_neg hkey, image_ofJson j, imageEntries_ofFields rest,
      Json.imageFields, image]

end

mutual

theorem depth_ofJson (j : Json) : (ofJson j).depth = j.nesting := by
  cases j with
  | int n => exact depth_ofInt n
  | list items => rw [ofJson, depth, depthItems_ofItems items, Json.nesting]
  | object fields => rw [ofJson, depth, depthEntries_ofFields fields, Json.nesting]
  | _ => rfl

theorem depthItems_ofItems (items : List Json) :
    depthItems (ofItems items) = Json.nestingAll items := by
  cases items with
  | nil => rfl
  | cons j rest =>
    rw [ofItems, depthItems, depth_ofJson j, depthItems_ofItems rest, Json.nestingAll]

theorem depthEntries_ofFields (fields : List (String × Json)) :
    depthEntries (ofFields fields) = Json.nestingFields fields := by
  match fields with
  | [] => rfl
  | (name, j) :: rest =>
    have hkey : ¬(text name).decompose.isComposite = true := by simp [decompose, isComposite]
    have hdepth : (text name).depth = 0 := rfl
    rw [ofFields, depthEntries, if_neg hkey, hdepth, Nat.zero_max, depth_ofJson j,
      depthEntries_ofFields rest, Json.nestingFields]

end

theorem imageEntries_append (pre post : List (Host × Host)) :
    imageEntries (pre ++ post) = imageEntries pre ++ imageEntries post := by
  induction pre with
  | nil => rfl
  | cons e rest ih =>
    rw [List.cons_append, imageEntries, imageEntries, ih]
    split <;> rfl

theorem depthItems_le_iff {items : List Host} {n : Nat} :
    depthItems items ≤ n ↔ ∀ h ∈ items, h.depth ≤ n := by
  induction items with
  | nil => simp [depthItems]
  | cons h rest ih => rw [depthItems, Nat.max_le, ih, List.forall_mem_cons]

/-- A map needs the levels of each entry, and of a value only where it is looked at. -/
theorem depthEntries_le_iff {entries : List (Host × Host)} {n : Nat} :
    depthEntries entries ≤ n ↔ ∀ e ∈ entries,
      e.1.depth ≤ n ∧ (e.1.decompose.isComposite = false → e.2.depth ≤ n) := by
  induction entries with
  | nil => simp [depthEntries]
  | cons e rest ih =>
    obtain ⟨k, h⟩ := e
    rw [depthEntries, Nat.max_le, Nat.max_le, ih, List.forall_mem_cons]
    cases k.decompose.isComposite <;> simp

/-- A map is one level deeper than what is looked at in it. -/
theorem depth_map_le_iff {entries : List (Host × Host)} {n : Nat} :
    (map entries).depth ≤ n + 1 ↔ ∀ e ∈ entries,
      e.1.depth ≤ n ∧ (e.1.decompose.isComposite = false → e.2.depth ≤ n) := by
  rw [depth, Nat.add_comm, Nat.add_le_add_iff_right, depthEntries_le_iff]

theorem image_decompose (h : Host) : h.decompose.image = h.image := by
  cases h with
  | structured j => exact image_ofJson j
  | _ => rfl

theorem depth_decompose (h : Host) : h.decompose.depth = h.depth := by
  cases h with
  | structured j => exact depth_ofJson j
  | _ => rfl

end Host

end ScriptTable
