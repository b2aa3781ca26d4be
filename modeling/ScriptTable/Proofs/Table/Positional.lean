import ScriptTable.Table
import ScriptTable.Proofs.Partition.Sorted

/-!
Values under successive whole numbers. Collecting a list puts each value at the end, so the result is
the table whose keys are 1 to the length of the list, with the values in their order.
-/

namespace ScriptTable

variable {V : Type}

namespace Sorted

/-- The whole numbers from `k` on, as many as `n`. -/
def keysFrom (k : Int) (n : Nat) : List Int := (List.range n).map fun i => k + Int.ofNat i

theorem keysFrom_succ (k : Int) (n : Nat) : keysFrom k (n + 1) = k :: keysFrom (k + 1) n := by
  rw [keysFrom, List.range_succ_eq_map, List.map_cons, List.map_map, keysFrom]
  congr 1
  · simp
  · apply List.map_congr_left
    intro i _
    simp only [Function.comp_apply, Int.ofNat_eq_natCast, Nat.succ_eq_add_one]
    omega

/-- A key above all keys goes to the end. -/
theorem WellFormed.insert_above {p : Sorted V} (wf : p.WellFormed) {k : Int} (v : V)
    (above : ∀ a ∈ p.keys.toList, a < k) : p.insert k v = ⟨p.keys.push k, p.values.push v⟩ := by
  rcases wf.insert_cases k v with ⟨i, hi, -⟩ | ⟨i, -, bound, -, after, he⟩
  · rw [← Array.getElem?_toList] at hi
    exact absurd (above k (List.mem_of_getElem? hi)) (lt_irrefl k)
  · have hend : i = p.keys.size := by
      by_contra hne
      have hi : i < p.keys.size := by omega
      exact absurd (after i hi le_rfl) (not_lt.mpr (above _ (by simp)).le)
    subst hend
    rw [he]
    congr 1
    · apply Array.ext'
      rw [toList_insertIdxIfInBounds, ← Array.length_toList, List.insertIdx_length_self]
      simp
    · apply Array.ext'
      rw [toList_insertIdxIfInBounds, wf.aligned, ← Array.length_toList,
        List.insertIdx_length_self]
      simp

theorem WellFormed.insertFrom_above {p : Sorted V} (wf : p.WellFormed) {k : Int}
    (above : ∀ a ∈ p.keys.toList, a < k) (vs : List V) :
    p.insertFrom k vs =
      ⟨p.keys ++ (keysFrom k vs.length).toArray, p.values ++ vs.toArray⟩ := by
  induction vs generalizing p k with
  | nil => simp [keysFrom]
  | cons v vs ih =>
    have hinsert := wf.insert_above v above
    have above' : ∀ a ∈ (p.insert k v).keys.toList, a < k + 1 := by
      intro a ha
      rw [hinsert, Array.toList_push, List.mem_append, List.mem_singleton] at ha
      rcases ha with ha | rfl
      · have := above a ha
        omega
      · omega
    rw [insertFrom_cons, ih (wf.insert k v) above', hinsert, List.length_cons, keysFrom_succ]
    simp

end Sorted

/-- The table that holds the values of a list under 1, 2, 3 and so on, and nothing else. -/
def Table.positional (vs : List V) : Table V :=
  { Table.empty with integers := ⟨(Sorted.keysFrom 1 vs.length).toArray, vs.toArray⟩ }

theorem Table.ofList_eq_positional (vs : List V) : ofList vs = positional vs := by
  rw [ofList, Sorted.wellFormed_empty.insertFrom_above (by simp) vs]
  simp [positional, Sorted.empty]

end ScriptTable
