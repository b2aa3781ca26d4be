import ScriptTable.Value.Equality
import ScriptTable.Proofs.Partition.Ordered

/-!
The partition of tables as keys. A key is found by its identity alone, and a table of the program
puts only tables here, so the entries are the pairing of distinct identities with values.
-/

namespace ScriptTable

def Value.identity? : Value → Option Identity
  | .table i _ => some i
  | _ => Option.none

theorem Value.sameIdentity_table (v : Value) (i : Identity) (t : Table Value) :
    v.sameIdentity (.table i t) = (v.identity? == some i) := by
  cases v <;> simp [Value.sameIdentity, Value.identity?, Value.equiv]

namespace Fallback

def identities (p : Fallback Value) : List Identity := p.keys.toList.filterMap Value.identity?

/-- The entries, each under the identity of its key. -/
def byIdentity (p : Fallback Value) : List (Identity × Value) := p.identities.zip p.values.toList

structure WellFormed (p : Fallback Value) : Prop where
  aligned : p.keys.size = p.values.size
  tables : p.keys.toList.map Value.identity? = p.identities.map some
  distinct : p.identities.Nodup

theorem wellFormed_empty : (⟨#[], #[]⟩ : Fallback Value).WellFormed :=
  ⟨rfl, rfl, List.nodup_nil⟩

namespace WellFormed

variable {p : Fallback Value} (wf : p.WellFormed)
include wf

theorem eq_empty (h : p.isEmpty = true) : p = ⟨#[], #[]⟩ := by
  have hkeys : p.keys = #[] := Array.isEmpty_iff.mp h
  have hvalues : p.values = #[] := by
    rw [← Array.size_eq_zero_iff, ← wf.aligned, hkeys]
    rfl
  cases p
  simp_all

theorem length_identities : p.identities.length = p.size := by
  have h := congrArg List.length wf.tables
  simpa [size] using h.symm

theorem aligned_identities : p.identities.length = p.values.toList.length := by
  rw [wf.length_identities, Array.length_toList, ← wf.aligned]
  rfl

theorem byIdentity_keys : p.byIdentity.map Prod.fst = p.identities :=
  List.map_fst_zip wf.aligned_identities.le

theorem position?_table (i : Identity) (t : Table Value) :
    p.position? (.table i t) = p.identities.idxOf? i := by
  have hsome : ((· == some i) ∘ some : Identity → Bool) = (· == i) := by
    funext j
    simp
  calc p.position? (.table i t)
      = p.keys.toList.findIdx? (fun k => k.identity? == some i) := by
        simp only [position?, Value.sameIdentity_table]
        rw [← List.findIdx?_toArray]
    _ = (p.keys.toList.map Value.identity?).findIdx? (· == some i) := by
        rw [List.findIdx?_map]
        rfl
    _ = p.identities.idxOf? i := by rw [wf.tables, List.findIdx?_map, hsome, List.idxOf?]

theorem position?_eq_some_iff (i : Identity) (t : Table Value) (n : Nat) :
    p.position? (.table i t) = some n ↔ p.identities[n]? = some i := by
  rw [wf.position?_table, List.idxOf?_eq_some_iff, List.getElem?_eq_some_iff]
  constructor
  · rintro ⟨hn, he, -⟩
    exact ⟨hn, he⟩
  · rintro ⟨hn, he⟩
    refine ⟨hn, he, ?_⟩
    intro m hm hmi
    have hnodup := List.nodup_iff_getElem?_ne_getElem?.mp wf.distinct m n hm hn
    rw [List.getElem?_eq_getElem hn, List.getElem?_eq_getElem (by omega), hmi, he] at hnodup
    exact hnodup rfl

theorem position?_eq_none_iff (i : Identity) (t : Table Value) :
    p.position? (.table i t) = none ↔ i ∉ p.identities := by
  rw [wf.position?_table, List.idxOf?_eq_none_iff]

/-- What an insertion does: either it sets the value of the table's entry, or it appends table and
value. -/
theorem insert_cases (i : Identity) (t : Table Value) (v : Value) :
    (∃ n, p.identities[n]? = some i ∧
      p.insert (.table i t) v = { p with values := p.values.setIfInBounds n v }) ∨
    (i ∉ p.identities ∧
      p.insert (.table i t) v = ⟨p.keys.push (.table i t), p.values.push v⟩) := by
  cases h : p.position? (.table i t) with
  | some n => exact .inl ⟨n, (wf.position?_eq_some_iff i t n).mp h, by simp only [Fallback.insert, h]⟩
  | none => exact .inr ⟨(wf.position?_eq_none_iff i t).mp h, by simp only [Fallback.insert, h]⟩

/-- A new identity goes to the end, and a stored one stays where it is. -/
theorem identities_insert (i : Identity) (t : Table Value) (v : Value) :
    (p.insert (.table i t) v).identities =
      if p.identities.contains i then p.identities else p.identities ++ [i] := by
  rcases wf.insert_cases i t v with ⟨n, hn, he⟩ | ⟨fresh, he⟩
  · have stored : p.identities.contains i = true := by simpa using List.mem_of_getElem? hn
    rw [he, if_pos stored]
    rfl
  · have absent : p.identities.contains i = false := by simpa using fresh
    rw [he, absent]
    simp [identities, Value.identity?]

theorem insert (i : Identity) (t : Table Value) (v : Value) :
    (p.insert (.table i t) v).WellFormed := by
  rcases wf.insert_cases i t v with ⟨n, hn, he⟩ | ⟨fresh, he⟩
  · rw [he]
    exact ⟨by simpa using wf.aligned, wf.tables, wf.distinct⟩
  · have hids : (p.insert (.table i t) v).identities = p.identities ++ [i] := by
      rw [wf.identities_insert, if_neg (by simpa using fresh)]
    rw [he] at hids ⊢
    refine ⟨by simp [wf.aligned], ?_, ?_⟩
    · rw [hids, List.map_append, ← wf.tables]
      simp [Value.identity?]
    · rw [hids, ← List.concat_eq_append, List.nodup_concat]
      exact ⟨fresh, wf.distinct⟩

theorem inserted (i : Identity) (t : Table Value) (v : Value) :
    Inserted i v p.byIdentity (p.insert (.table i t) v).byIdentity := by
  have aligned := wf.aligned_identities
  rcases wf.insert_cases i t v with ⟨n, hn, he⟩ | ⟨fresh, he⟩
  · rw [he]
    have h := inserted_zip_set aligned wf.distinct v hn
    rw [← Array.toList_setIfInBounds] at h
    exact h
  · have hids : (p.insert (.table i t) v).identities = p.identities ++ [i] := by
      rw [wf.identities_insert, if_neg (by simpa using fresh)]
    rw [byIdentity, byIdentity, hids, he, Array.toList_push]
    exact inserted_zip_concat aligned v fresh

/-- A lookup is a scan of the entries for the identity. -/
theorem get?_eq_lookup (i : Identity) (t : Table Value) :
    p.get? (.table i t) = p.byIdentity.lookup i := by
  cases h : p.position? (.table i t) with
  | some n =>
    have hn := (wf.position?_eq_some_iff i t n).mp h
    rw [get?, h, byIdentity, lookup_zip wf.aligned_identities wf.distinct hn, Array.getElem?_toList]
    rfl
  | none =>
    have fresh := (wf.position?_eq_none_iff i t).mp h
    rw [get?, h, lookup_eq_none_of_not_mem (wf.byIdentity_keys ▸ fresh)]
    rfl

end WellFormed

end Fallback

end ScriptTable
