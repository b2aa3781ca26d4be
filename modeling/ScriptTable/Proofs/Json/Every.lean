import ScriptTable.Host

/-!
Documents as a whole. A property of documents holds everywhere in a document when it holds of it and
of all that it contains; what a reader of JSON gives out has each name of an object once, finite
floats, and whole numbers of 64 bits with or without a sign.
-/

namespace ScriptTable.Json

def isComposite : Json → Bool
  | .list _ | .object _ => true
  | _ => false

@[elab_as_elim]
theorem induction {P : Json → Prop} (primitive : ∀ j, j.isComposite = false → P j)
    (list : ∀ items, (∀ j ∈ items, P j) → P (.list items))
    (object : ∀ fields : List (String × Json), (∀ f ∈ fields, P f.2) → P (.object fields))
    (j : Json) : P j := by
  induction hn : sizeOf j using Nat.strongRecOn generalizing j with
  | ind n ih =>
    subst hn
    cases j with
    | list items =>
      apply list
      intro j hj
      have hlt := List.sizeOf_lt_of_mem hj
      rw [Json.list.sizeOf_spec] at ih
      exact ih _ (by omega) j rfl
    | object fields =>
      apply object
      intro f hf
      have hlt := List.sizeOf_lt_of_mem hf
      rw [Prod.mk.sizeOf_spec] at hlt
      rw [Json.object.sizeOf_spec] at ih
      exact ih _ (by omega) f.2 rfl
    | _ => exact primitive _ rfl

theorem isComposite_ofJson (j : Json) : (Host.ofJson j).isComposite = j.isComposite := by
  cases j with
  | int n =>
    rw [Host.ofJson, Host.ofInt]
    split <;> rfl
  | _ => rfl

theorem decompose_ofJson (j : Json) : (Host.ofJson j).decompose = Host.ofJson j := by
  cases j with
  | int n =>
    rw [Host.ofJson, Host.ofInt]
    split <;> rfl
  | _ => rfl

theorem isComposite_decompose_ofJson (j : Json) :
    (Host.ofJson j).decompose.isComposite = j.isComposite := by
  rw [decompose_ofJson, isComposite_ofJson]

theorem nesting_of_primitive {j : Json} (h : j.isComposite = false) : j.nesting = 0 := by
  cases j with
  | list items => cases h
  | object fields => cases h
  | _ => rfl

theorem nestingAll_le_iff {items : List Json} {n : Nat} :
    nestingAll items ≤ n ↔ ∀ j ∈ items, j.nesting ≤ n := by
  induction items with
  | nil => simp [nestingAll]
  | cons j rest ih => rw [nestingAll, Nat.max_le, ih, List.forall_mem_cons]

theorem nestingFields_le_iff {fields : List (String × Json)} {n : Nat} :
    nestingFields fields ≤ n ↔ ∀ f ∈ fields, f.2.nesting ≤ n := by
  induction fields with
  | nil => simp [nestingFields]
  | cons f rest ih => rw [nestingFields, Nat.max_le, ih, List.forall_mem_cons]

mutual

/-- Whether a property holds of a document and of every document inside it. -/
def every (p : Json → Bool) : Json → Bool
  | .list items => p (.list items) && everyItem p items
  | .object fields => p (.object fields) && everyMember p fields
  | j => p j

def everyItem (p : Json → Bool) : List Json → Bool
  | [] => true
  | j :: rest => j.every p && everyItem p rest

def everyMember (p : Json → Bool) : List (String × Json) → Bool
  | [] => true
  | (_, j) :: rest => j.every p && everyMember p rest

end

theorem every_list_iff {p : Json → Bool} {items : List Json} :
    (list items).every p = true ↔ p (.list items) = true ∧ ∀ j ∈ items, j.every p = true := by
  have hitems : everyItem p items = true ↔ ∀ j ∈ items, j.every p = true := by
    induction items with
    | nil => simp [everyItem]
    | cons j rest ih => simp [everyItem, ih]
  rw [every, Bool.and_eq_true, hitems]

theorem every_object_iff {p : Json → Bool} {fields : List (String × Json)} :
    (object fields).every p = true ↔
      p (.object fields) = true ∧ ∀ f ∈ fields, f.2.every p = true := by
  have hfields : everyMember p fields = true ↔ ∀ f ∈ fields, f.2.every p = true := by
    induction fields with
    | nil => simp [everyMember]
    | cons f rest ih => simp [everyMember, ih]
  rw [every, Bool.and_eq_true, hfields]

theorem every_of_primitive {p : Json → Bool} {j : Json} (h : j.isComposite = false) :
    j.every p = p j := by
  cases j with
  | list items => cases h
  | object fields => cases h
  | _ => simp [every]

/-- No name twice in an object. -/
def distinctNames : Json → Bool
  | .object fields => decide (fields.map Prod.fst).Nodup
  | _ => true

/-- A number that a document can hold. -/
def inRange : Json → Bool
  | .int n => -0x8000000000000000 ≤ n && n < 0x10000000000000000
  | .float x => x.isFinite
  | _ => true

/-- What a reader gives out, and what can be lifted within so many levels and projected again. -/
structure Regular (j : Json) (levels : Nat) : Prop where
  distinct : j.every distinctNames = true
  range : j.every inRange = true
  within : j.nesting ≤ levels

theorem Regular.primitive {j : Json} (h : j.isComposite = false) (range : j.inRange = true)
    (levels : Nat) : j.Regular levels := by
  refine ⟨?_, ?_, ?_⟩
  · rw [every_of_primitive h]
    cases j <;> first | rfl | cases h
  · rw [every_of_primitive h, range]
  · rw [nesting_of_primitive h]
    exact Nat.zero_le levels

theorem Regular.list {items : List Json} {levels : Nat} (h : ∀ j ∈ items, j.Regular levels) :
    (list items).Regular (levels + 1) := by
  refine ⟨every_list_iff.mpr ⟨rfl, fun j hj => (h j hj).distinct⟩,
    every_list_iff.mpr ⟨rfl, fun j hj => (h j hj).range⟩, ?_⟩
  rw [nesting, Nat.add_comm 1, Nat.add_le_add_iff_right, nestingAll_le_iff]
  exact fun j hj => (h j hj).within

theorem Regular.object {fields : List (String × Json)} {levels : Nat}
    (nodup : (fields.map Prod.fst).Nodup) (h : ∀ f ∈ fields, f.2.Regular levels) :
    (object fields).Regular (levels + 1) := by
  refine ⟨every_object_iff.mpr ⟨decide_eq_true nodup, fun f hf => (h f hf).distinct⟩,
    every_object_iff.mpr ⟨rfl, fun f hf => (h f hf).range⟩, ?_⟩
  rw [nesting, Nat.add_comm 1, Nat.add_le_add_iff_right, nestingFields_le_iff]
  exact fun f hf => (h f hf).within

/-- Neither a list nor a whole number that takes 64 bits without a sign. -/
def survives : Json → Bool
  | .list _ => false
  | .int n => Host.fitsInteger n
  | _ => true

mutual

/-- What is left of a document after it has been a table: a list has no names, so nothing is left of
it, and a whole number beyond the signed range is a float. -/
def kept : Json → Json
  | .int n => if Host.fitsInteger n then .int n else .float (.ofInt n)
  | .list _ => .object []
  | .object fields => .object (keptFields fields)
  | j => j

def keptFields : List (String × Json) → List (String × Json)
  | [] => []
  | (name, j) :: rest => (name, j.kept) :: keptFields rest

end

theorem kept_object (fields : List (String × Json)) :
    (object fields).kept = .object (fields.map fun f => (f.1, f.2.kept)) := by
  rw [kept]
  congr 1
  induction fields with
  | nil => rfl
  | cons f rest ih => rw [keptFields, ih, List.map_cons]

theorem kept_of_survives {j : Json} (h : j.every survives = true) : j.kept = j := by
  induction j using Json.induction with
  | primitive j hj =>
    rw [every_of_primitive hj] at h
    cases j with
    | int n =>
      rw [survives] at h
      rw [kept, if_pos h]
    | list items => cases hj
    | object fields => cases hj
    | _ => rfl
  | list items => exact absurd (every_list_iff.mp h).1 (by simp [survives])
  | object fields ih =>
    rw [every_object_iff] at h
    have hfields : (fields.map fun f => (f.1, f.2.kept)) = fields.map id := by
      apply List.map_congr_left
      intro f hf
      rw [ih f hf (h.2 f hf), id]
    rw [kept_object, hfields, List.map_id]

end ScriptTable.Json
