import Mathlib.Data.List.Sort
import ScriptTable.Partition.Sorted
import ScriptTable.Proofs.Partition.Inserted

/-!
The partition of whole-number keys. Keys stay strictly ascending under every insertion, so binary
search finds the one position of a key, and every operation is the plain one on the entries.
-/

namespace ScriptTable

namespace Successor

variable {K : Type}

/-- The answer when exactly these keys are still to come. -/
def ofRest : List K → Successor K
  | [] => .last
  | k :: _ => .next k

@[simp] theorem ofRest_nil : ofRest ([] : List K) = .last := rfl
@[simp] theorem ofRest_cons (k : K) (ks : List K) : ofRest (k :: ks) = .next k := rfl

theorem map_ofRest {L : Type} (f : K → L) (ks : List K) :
    (ofRest ks).map f = ofRest (ks.map f) := by
  cases ks <;> rfl

theorem after_of_split {keys : Array K} {pre post : List K} {k : K}
    (h : keys.toList = pre ++ k :: post) : after keys pre.length = ofRest post := by
  have hnext : keys[pre.length + 1]? = post[0]? := by
    rw [← Array.getElem?_toList, h, List.getElem?_append_right (by omega)]
    simp
  rw [after, hnext]
  cases post <;> rfl

end Successor

namespace Sorted

variable {V : Type}

structure WellFormed (p : Sorted V) : Prop where
  aligned : p.keys.size = p.values.size
  ascending : p.keys.toList.Pairwise (· < ·)

theorem toList_insertIdxIfInBounds {α : Type} (xs : Array α) (i : Nat) (a : α) :
    (xs.insertIdxIfInBounds i a).toList = xs.toList.insertIdx i a := by
  cases xs
  simp

/-- A key put between the smaller keys and the greater ones keeps the order. -/
theorem pairwise_insertIdx {ks : List Int} (asc : ks.Pairwise (· < ·)) {k : Int} {i : Nat}
    (bound : i ≤ ks.length) (below : ∀ j (hj : j < ks.length), j < i → ks[j] < k)
    (above : ∀ j (hj : j < ks.length), i ≤ j → k < ks[j]) :
    (ks.insertIdx i k).Pairwise (· < ·) := by
  obtain ⟨pre, post, rfl, rfl, hinsert⟩ := exists_of_insertIdx k bound
  have hpre : ∀ a ∈ pre, a < k := by
    intro a ha
    obtain ⟨j, hj, rfl⟩ := List.mem_iff_getElem.mp ha
    have h := below j (by rw [List.length_append]; omega) hj
    rwa [List.getElem_append_left hj] at h
  have hpost : ∀ a ∈ post, k < a := by
    intro a ha
    obtain ⟨j, hj, rfl⟩ := List.mem_iff_getElem.mp ha
    have h := above (pre.length + j) (by rw [List.length_append]; omega) (by omega)
    simpa using h
  rw [List.pairwise_append] at asc
  rw [hinsert, List.pairwise_append, List.pairwise_cons]
  refine ⟨asc.1, ⟨hpost, asc.2.1⟩, ?_⟩
  intro a ha b hb
  rcases List.mem_cons.mp hb with rfl | hb
  · exact hpre a ha
  · exact asc.2.2 a ha b hb

theorem wellFormed_empty : (empty : Sorted V).WellFormed := ⟨rfl, by simp⟩

/-- The window closes on the one position that separates the keys below `k` from the others. -/
theorem lowerBound_spec {keys : Array Int} (asc : keys.toList.Pairwise (· < ·)) (k : Int)
    {lo hi : Nat} (bound : hi ≤ keys.size) (window : lo ≤ hi)
    (below : ∀ j (hj : j < keys.size), j < lo → keys[j] < k)
    (above : ∀ j (hj : j < keys.size), hi ≤ j → k ≤ keys[j]) :
    lowerBound keys k lo hi bound ≤ hi ∧
      (∀ j (hj : j < keys.size), j < lowerBound keys k lo hi bound → keys[j] < k) ∧
      (∀ j (hj : j < keys.size), lowerBound keys k lo hi bound ≤ j → k ≤ keys[j]) := by
  have mono : ∀ i j (hi : i < keys.size) (hj : j < keys.size), i ≤ j → keys[i] ≤ keys[j] := by
    intro i j hi hj hij
    rcases Nat.lt_or_eq_of_le hij with h | rfl
    · exact (List.pairwise_iff_getElem.mp asc i j hi hj h).le
    · exact le_rfl
  fun_induction lowerBound keys k lo hi bound with
  | case1 lo hi bound hlt mid hmid hprobe ih =>
    apply ih (by omega) _ above
    intro j hj hjm
    exact lt_of_le_of_lt (mono j mid hj hmid (by omega)) hprobe
  | case2 lo hi bound hlt mid hmid hprobe ih =>
    have h := ih (by omega) below (by
      intro j hj hjm
      exact (not_lt.mp hprobe).trans (mono mid j hmid hj hjm))
    exact ⟨by omega, h.2⟩
  | case3 lo hi bound hge =>
    exact ⟨window, below, fun j hj hjl => above j hj (by omega)⟩

namespace WellFormed

variable {p : Sorted V} (wf : p.WellFormed)
include wf

theorem nodup : p.keys.toList.Nodup := wf.ascending.imp (fun h => h.ne)

theorem eq_empty (h : p.isEmpty = true) : p = empty := by
  have hkeys : p.keys = #[] := Array.isEmpty_iff.mp h
  have hvalues : p.values = #[] := by
    rw [← Array.size_eq_zero_iff, ← wf.aligned, hkeys]
    rfl
  cases p
  simp_all [empty]

theorem entries_keys : p.entries.map Prod.fst = p.keys.toList :=
  List.map_fst_zip (by simp [wf.aligned])

theorem entries_values : p.entries.map Prod.snd = p.values.toList :=
  List.map_snd_zip (by simp [wf.aligned])

theorem ext_entries {q : Sorted V} (wf' : q.WellFormed) (entries : p.entries = q.entries) : p = q := by
  have hkeys : p.keys = q.keys :=
    Array.ext' (by rw [← wf.entries_keys, entries, wf'.entries_keys])
  have hvalues : p.values = q.values :=
    Array.ext' (by rw [← wf.entries_values, entries, wf'.entries_values])
  obtain ⟨pk, pv⟩ := p
  obtain ⟨qk, qv⟩ := q
  obtain rfl : pk = qk := hkeys
  obtain rfl : pv = qv := hvalues
  rfl

/-- The order of the keys leaves no choice. -/
theorem eq_of_perm {q : Sorted V} (wf' : q.WellFormed) (perm : p.entries.Perm q.entries) : p = q := by
  have ascending : ∀ {r : Sorted V}, r.WellFormed → r.entries.Pairwise (fun a b => a.1 < b.1) := by
    intro r hr
    rw [← List.pairwise_map, hr.entries_keys]
    exact hr.ascending
  apply wf.ext_entries wf'
  apply perm.eq_of_pairwise _ (ascending wf) (ascending wf')
  intro a b _ _ hab hba
  exact absurd hab (lt_asymm hba)

/-- The lower bound for `k` in the whole array. -/
theorem lowerBound_whole (k : Int) :
    lowerBound p.keys k 0 p.keys.size (Nat.le_refl _) ≤ p.keys.size ∧
      (∀ j (hj : j < p.keys.size), j < lowerBound p.keys k 0 p.keys.size (Nat.le_refl _) →
        p.keys[j] < k) ∧
      (∀ j (hj : j < p.keys.size), lowerBound p.keys k 0 p.keys.size (Nat.le_refl _) ≤ j →
        k ≤ p.keys[j]) :=
  lowerBound_spec wf.ascending k _ (Nat.zero_le _) (by omega) (by omega)

/-- Search answers `stored i` exactly when the key at `i` is the one looked for. -/
theorem search_eq_stored_iff (k : Int) (i : Nat) : p.search k = .stored i ↔ p.keys[i]? = some k := by
  obtain ⟨-, below, above⟩ := wf.lowerBound_whole k
  simp only [search]
  constructor
  · intro h
    split at h
    · cases h
      assumption
    · cases h
  · intro h
    obtain ⟨hi, hk⟩ := Array.getElem?_eq_some_iff.mp h
    have hle : lowerBound p.keys k 0 p.keys.size (Nat.le_refl _) ≤ i := by
      by_contra hlt
      have := below i hi (by omega)
      omega
    have hge : i ≤ lowerBound p.keys k 0 p.keys.size (Nat.le_refl _) := by
      by_contra hlt
      have hl : lowerBound p.keys k 0 p.keys.size (Nat.le_refl _) < p.keys.size := by omega
      have := above _ hl (Nat.le_refl _)
      have := List.pairwise_iff_getElem.mp wf.ascending _ i hl hi (by omega)
      simp only [Array.getElem_toList] at this
      omega
    rw [Nat.le_antisymm hle hge, if_pos h]

/-- Otherwise it answers the one position at which the key keeps the order. -/
theorem search_eq_vacant {k : Int} {i : Nat} (h : p.search k = .vacant i) :
    k ∉ p.keys.toList ∧ i ≤ p.keys.size ∧ (∀ j (hj : j < p.keys.size), j < i → p.keys[j] < k) ∧
      (∀ j (hj : j < p.keys.size), i ≤ j → k < p.keys[j]) := by
  have fresh : k ∉ p.keys.toList := by
    intro hk
    obtain ⟨j, hj⟩ := List.mem_iff_getElem?.mp hk
    rw [Array.getElem?_toList, ← wf.search_eq_stored_iff] at hj
    rw [hj] at h
    cases h
  obtain ⟨bound, below, above⟩ := wf.lowerBound_whole k
  simp only [search] at h
  split at h
  · cases h
  · cases h
    refine ⟨fresh, bound, below, ?_⟩
    intro j hj hij
    apply lt_of_le_of_ne (above j hj hij)
    rintro rfl
    exact fresh (by simp)

/-- What an insertion does: either it sets the value at the key's position, or it puts key and value
at the position that keeps the order. -/
theorem insert_cases (k : Int) (v : V) :
    (∃ i, p.keys[i]? = some k ∧ p.insert k v = ⟨p.keys, p.values.setIfInBounds i v⟩) ∨
    (∃ i, k ∉ p.keys.toList ∧ i ≤ p.keys.size ∧
      (∀ j (hj : j < p.keys.size), j < i → p.keys[j] < k) ∧
      (∀ j (hj : j < p.keys.size), i ≤ j → k < p.keys[j]) ∧
      p.insert k v = ⟨p.keys.insertIdxIfInBounds i k, p.values.insertIdxIfInBounds i v⟩) := by
  cases h : p.search k with
  | stored i =>
    exact .inl ⟨i, (wf.search_eq_stored_iff k i).mp h, by simp only [insert, h]⟩
  | vacant i =>
    obtain ⟨fresh, bound, below, above⟩ := wf.search_eq_vacant h
    exact .inr ⟨i, fresh, bound, below, above, by simp only [insert, h]⟩

theorem inserted (k : Int) (v : V) : Inserted k v p.entries (p.insert k v).entries := by
  have aligned : p.keys.toList.length = p.values.toList.length := by simpa using wf.aligned
  rcases wf.insert_cases k v with ⟨i, hi, he⟩ | ⟨i, fresh, bound, -, -, he⟩
  · rw [he]
    simp only [entries, Array.toList_setIfInBounds]
    exact inserted_zip_set aligned wf.nodup v (by rwa [Array.getElem?_toList])
  · rw [he]
    simp only [entries, toList_insertIdxIfInBounds]
    exact inserted_zip_insertIdx aligned v fresh bound

theorem insert (k : Int) (v : V) : (p.insert k v).WellFormed := by
  rcases wf.insert_cases k v with ⟨i, hi, he⟩ | ⟨i, fresh, bound, below, above, he⟩
  · rw [he]
    exact ⟨by simpa using wf.aligned, wf.ascending⟩
  · rw [he]
    constructor
    · rw [← Array.length_toList, ← Array.length_toList, toList_insertIdxIfInBounds,
        toList_insertIdxIfInBounds, List.length_insertIdx, List.length_insertIdx]
      simp [wf.aligned]
    · rw [toList_insertIdxIfInBounds]
      exact pairwise_insertIdx wf.ascending bound (fun j hj => below j hj) (fun j hj => above j hj)

/-- A lookup is a scan of the entries. -/
theorem get?_eq_lookup (k : Int) : p.get? k = p.entries.lookup k := by
  cases h : p.search k with
  | stored i =>
    have hk := (wf.search_eq_stored_iff k i).mp h
    rw [← Array.getElem?_toList] at hk
    rw [get?, h, entries, lookup_zip wf.aligned wf.nodup hk, Array.getElem?_toList]
  | vacant i =>
    have fresh := (wf.search_eq_vacant h).1
    rw [get?, h, lookup_eq_none_of_not_mem (wf.entries_keys ▸ fresh)]

theorem contains_iff (k : Int) : p.contains k = true ↔ k ∈ p.keys.toList := by
  cases h : p.search k with
  | stored i =>
    have hk := (wf.search_eq_stored_iff k i).mp h
    rw [← Array.getElem?_toList] at hk
    simp [contains, h, List.mem_of_getElem? hk]
  | vacant i => simp only [contains, h, Bool.false_eq_true, (wf.search_eq_vacant h).1]

theorem successor_of_split {k : Int} {pre post : List Int} (h : p.keys.toList = pre ++ k :: post) :
    p.successor k = .ofRest post := by
  have hs : p.search k = .stored pre.length := by
    rw [wf.search_eq_stored_iff, ← Array.getElem?_toList, h]
    simp
  rw [successor, hs]
  exact Successor.after_of_split h

theorem successor_of_not_mem {k : Int} (h : k ∉ p.keys.toList) : p.successor k = .absent := by
  cases hs : p.search k with
  | stored i =>
    have hk := (wf.search_eq_stored_iff k i).mp hs
    rw [← Array.getElem?_toList] at hk
    exact absurd (List.mem_of_getElem? hk) h
  | vacant i => rw [successor, hs]

end WellFormed

theorem firstKey?_eq (p : Sorted V) : p.firstKey? = p.keys.toList.head? := by
  rw [firstKey?, ← Array.getElem?_toList, List.head?_eq_getElem?]

end Sorted

end ScriptTable
