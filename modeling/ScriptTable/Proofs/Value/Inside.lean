import ScriptTable.Proofs.Value.Forget

/-!
Tables inside tables. The tables that a table stores are smaller than it is, so what holds of a table
whenever it holds of those holds of every table. Fallback keys count as stored: they are values too.
-/

namespace ScriptTable

variable {V W : Type}

/-- Every value that a table stores, the keys of the fallback partition included. -/
def Table.contents (t : Table V) : List V :=
  t.integers.values.toList ++ t.floats.values.toList ++ t.texts.values.toList ++
    t.booleans.values.toList ++ t.fallback.keys.toList ++ t.fallback.values.toList

theorem Value.sizeOf_lt {t : Table Value} {v : Value} (h : v ∈ t.contents) :
    sizeOf v < sizeOf t := by
  obtain ⟨⟨intKeys, ⟨ints⟩⟩, ⟨floatKeys, floatIndex, ⟨floats⟩⟩, ⟨textKeys, textIndex, ⟨texts⟩⟩,
    ⟨boolKeys, boolIndex, ⟨bools⟩⟩, ⟨⟨tableKeys⟩, ⟨tables⟩⟩⟩ := t
  simp only [Table.contents, List.mem_append] at h
  simp only [Table.mk.sizeOf_spec, Sorted.mk.sizeOf_spec, Ordered.mk.sizeOf_spec,
    Fallback.mk.sizeOf_spec, Array.mk.sizeOf_spec]
  rcases h with ((((h | h) | h) | h) | h) | h <;> have := List.sizeOf_lt_of_mem h <;> omega

/-- The induction that follows the nesting of tables. -/
theorem Table.induction {P : Table Value → Prop}
    (step : ∀ t, (∀ i u, Value.table i u ∈ t.contents → P u) → P t) (t : Table Value) : P t := by
  induction hn : SizeOf.sizeOf t using Nat.strongRecOn generalizing t with
  | ind n ih =>
    subst hn
    apply step
    intro i u h
    have hlt := Value.sizeOf_lt h
    rw [Value.table.sizeOf_spec] at hlt
    exact ih (SizeOf.sizeOf u) (by omega) u rfl

/-- `u.Inside t`: the table `u` is `t` or stored in it, at any depth. -/
inductive Table.Inside (u : Table Value) : Table Value → Prop where
  | self : Inside u u
  | stored {i : Identity} {t w : Table Value} (h : Value.table i w ∈ t.contents)
      (hu : u.Inside w) : Inside u t

/-- What holds of every table inside: it holds of the table itself and inside of what is stored. -/
theorem Table.forall_inside_iff {p : Table Value → Prop} {t : Table Value} :
    (∀ u, u.Inside t → p u) ↔
      p t ∧ ∀ i w, Value.table i w ∈ t.contents → ∀ u, u.Inside w → p u := by
  constructor
  · intro h
    exact ⟨h t .self, fun i w hw u hu => h u (.stored hw hu)⟩
  · rintro ⟨ht, hstored⟩ u hu
    cases hu with
    | self => exact ht
    | stored hw hu => exact hstored _ _ hw u hu

mutual

/-- How deep tables are nested. -/
def Value.nesting : Value → Nat
  | .table _ t => t.nesting
  | _ => 0

def Table.nesting : Table Value → Nat
  | ⟨⟨_, ⟨ints⟩⟩, ⟨_, _, ⟨floats⟩⟩, ⟨_, _, ⟨texts⟩⟩, ⟨_, _, ⟨bools⟩⟩, ⟨⟨tableKeys⟩, ⟨tables⟩⟩⟩ =>
    1 + max (max (max (max (max (Value.nestingAll ints) (Value.nestingAll floats))
      (Value.nestingAll texts)) (Value.nestingAll bools)) (Value.nestingAll tableKeys))
      (Value.nestingAll tables)

def Value.nestingAll : List Value → Nat
  | [] => 0
  | v :: vs => max v.nesting (Value.nestingAll vs)

end

theorem Value.nestingAll_le_iff {vs : List Value} {n : Nat} :
    nestingAll vs ≤ n ↔ ∀ v ∈ vs, v.nesting ≤ n := by
  induction vs with
  | nil => simp [nestingAll]
  | cons v vs ih => simp [nestingAll, ih]

theorem Table.nesting_le_iff {t : Table Value} {n : Nat} :
    t.nesting ≤ n + 1 ↔ ∀ v ∈ t.contents, v.nesting ≤ n := by
  obtain ⟨⟨intKeys, ⟨ints⟩⟩, ⟨floatKeys, floatIndex, ⟨floats⟩⟩, ⟨textKeys, textIndex, ⟨texts⟩⟩,
    ⟨boolKeys, boolIndex, ⟨bools⟩⟩, ⟨⟨tableKeys⟩, ⟨tables⟩⟩⟩ := t
  simp only [nesting, Nat.add_comm 1, Nat.add_le_add_iff_right, Nat.max_le,
    Value.nestingAll_le_iff, contents, List.forall_mem_append]

theorem Sorted.mem_values_insert {p : Sorted V} {k : Int} {v w : V}
    (h : w ∈ (p.insert k v).values.toList) : w = v ∨ w ∈ p.values.toList := by
  rw [insert] at h
  split at h
  · rw [Array.toList_setIfInBounds] at h
    exact (List.mem_or_eq_of_mem_set h).symm
  · rw [toList_insertIdxIfInBounds] at h
    exact List.eq_or_mem_of_mem_insertIdx h

theorem Ordered.mem_values_insert {K : Type} [BEq K] [Hashable K] [LawfulBEq K] {p : Ordered K V}
    {k : K} {v w : V} (h : w ∈ (p.insert k v).values.toList) : w = v ∨ w ∈ p.values.toList := by
  rw [insert] at h
  split at h
  · rw [Array.toList_setIfInBounds] at h
    exact (List.mem_or_eq_of_mem_set h).symm
  · rw [Array.toList_push, List.mem_append, List.mem_singleton] at h
    exact h.symm

theorem Fallback.mem_keys_insert {p : Fallback Value} {k v w : Value}
    (h : w ∈ (p.insert k v).keys.toList) : w = k ∨ w ∈ p.keys.toList := by
  rw [insert] at h
  split at h
  · exact .inr h
  · rw [Array.toList_push, List.mem_append, List.mem_singleton] at h
    exact h.symm

theorem Fallback.mem_values_insert {p : Fallback Value} {k v w : Value}
    (h : w ∈ (p.insert k v).values.toList) : w = v ∨ w ∈ p.values.toList := by
  rw [insert] at h
  split at h
  · rw [Array.toList_setIfInBounds] at h
    exact (List.mem_or_eq_of_mem_set h).symm
  · rw [Array.toList_push, List.mem_append, List.mem_singleton] at h
    exact h.symm

theorem Table.mem_contents_setKey {t : Table V} {k : Key} {v w : V}
    (h : w ∈ (t.setKey k v).contents) : w = v ∨ w ∈ t.contents := by
  simp only [contents, List.mem_append] at h ⊢
  cases k with
  | integer n =>
    have hvalues := Sorted.mem_values_insert (p := t.integers) (k := n) (v := v) (w := w)
    simp only [setKey] at h
    tauto
  | float x =>
    have hvalues := Ordered.mem_values_insert (p := t.floats) (k := x) (v := v) (w := w)
    simp only [setKey] at h
    tauto
  | text s =>
    have hvalues := Ordered.mem_values_insert (p := t.texts) (k := s) (v := v) (w := w)
    simp only [setKey] at h
    tauto
  | boolean b =>
    have hvalues := Ordered.mem_values_insert (p := t.booleans) (k := b) (v := v) (w := w)
    simp only [setKey] at h
    tauto

/-- A write stores its value, and its key if that is a table. -/
theorem Table.mem_contents_set {t : Table Value} {k v w : Value} (h : w ∈ (t.set k v).contents) :
    (w = k ∧ k.isTable = true) ∨ w = v ∨ w ∈ t.contents := by
  cases k with
  | none => exact .inr (.inr h)
  | integer n => exact .inr (mem_contents_setKey h)
  | float x => exact .inr (mem_contents_setKey h)
  | boolean b => exact .inr (mem_contents_setKey h)
  | text s => exact .inr (mem_contents_setKey h)
  | table i u =>
    have hkeys := Fallback.mem_keys_insert (p := t.fallback) (k := .table i u) (v := v) (w := w)
    have hvalues := Fallback.mem_values_insert (p := t.fallback) (k := .table i u) (v := v) (w := w)
    simp only [contents, set, List.mem_append] at h ⊢
    have htable : (Value.table i u).isTable = true := rfl
    tauto

@[simp] theorem Table.contents_empty : (empty : Table V).contents = [] := rfl

theorem Table.contents_forget (t : Table Value) :
    t.forget.contents = t.contents.map Value.forget := by
  rw [forget_eq_map]
  simp [contents, map, Sorted.map, Ordered.map, Fallback.map]

end ScriptTable
