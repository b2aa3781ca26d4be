import Mathlib.Data.List.Induction
import Mathlib.Data.Nat.Log
import Mathlib.Order.Bounds.Basic
import ScriptTable.Proofs.Partition.Sorted

/-!
What binary search reads, and what insertions keep because of it. Every position that a search reads
lies inside its window, and a window of `n` positions takes at most `clog₂ (n + 1)` reads. The position
where it ends separates the smaller keys from the others, so after any insertions the keys ascend; the
first key is the least one, and the successor of a key is the least key above it.
-/

namespace ScriptTable.Sorted

variable {V : Type}

/-- The positions that the search in a window reads, one after another. Nothing is read after a
position outside the array. -/
def probes (keys : Array Int) (k : Int) (lo hi : Nat) : List Nat :=
  if lo < hi then
    let mid := lo + (hi - lo) / 2
    match keys[mid]? with
    | some j => if j < k then mid :: probes keys k (mid + 1) hi else mid :: probes keys k lo mid
    | none => [mid]
  else []
termination_by hi - lo

theorem mem_probes {keys : Array Int} {k : Int} {lo hi i : Nat} (h : i ∈ probes keys k lo hi) :
    lo ≤ i ∧ i < hi := by
  fun_induction probes keys k lo hi with
  | case1 lo hi hlt mid j hj hprobe ih =>
    rcases List.mem_cons.mp h with rfl | h
    · omega
    · have := ih h
      omega
  | case2 lo hi hlt mid j hj hprobe ih =>
    rcases List.mem_cons.mp h with rfl | h
    · omega
    · have := ih h
      omega
  | case3 lo hi hlt mid hnone =>
    rw [List.mem_singleton.mp h]
    omega
  | case4 lo hi hge => cases h

/-- Half of what is left of a window, and the position read. -/
theorem clog_half {n m : Nat} (hn : 0 < n) (hm : m ≤ n / 2) :
    Nat.clog 2 (m + 1) + 1 ≤ Nat.clog 2 (n + 1) := by
  rw [Nat.clog_of_one_lt (n := n + 1) Nat.one_lt_two (by omega)]
  exact Nat.succ_le_succ (Nat.clog_mono_right 2 (by omega))

theorem length_probes_le (keys : Array Int) (k : Int) (lo hi : Nat) :
    (probes keys k lo hi).length ≤ Nat.clog 2 (hi - lo + 1) := by
  fun_induction probes keys k lo hi with
  | case1 lo hi hlt mid j hj hprobe ih =>
    have := clog_half (n := hi - lo) (m := hi - (mid + 1)) (by omega) (by omega)
    rw [List.length_cons]
    omega
  | case2 lo hi hlt mid j hj hprobe ih =>
    have := clog_half (n := hi - lo) (m := mid - lo) (by omega) (by omega)
    rw [List.length_cons]
    omega
  | case3 lo hi hlt mid hnone =>
    have := clog_half (n := hi - lo) (m := 0) (by omega) (by omega)
    rw [List.length_singleton]
    omega
  | case4 lo hi hge => exact Nat.zero_le _

theorem probes_of_lt {keys : Array Int} {k : Int} {lo hi : Nat} (hlt : lo < hi)
    (hmid : lo + (hi - lo) / 2 < keys.size) :
    probes keys k lo hi = (lo + (hi - lo) / 2) ::
      if keys[lo + (hi - lo) / 2] < k then probes keys k (lo + (hi - lo) / 2 + 1) hi
      else probes keys k lo (lo + (hi - lo) / 2) := by
  rw [probes, if_pos hlt]
  simp only [Array.getElem?_eq_getElem hmid]
  split <;> rfl

/-- A search depends on nothing but the keys at the positions that it reads. -/
theorem lowerBound_eq_of_probes {keys others : Array Int} {k : Int} {lo hi : Nat}
    (bound : hi ≤ keys.size) (bound' : hi ≤ others.size)
    (agree : ∀ i ∈ probes keys k lo hi, others[i]? = keys[i]?) :
    lowerBound others k lo hi bound' = lowerBound keys k lo hi bound := by
  fun_induction lowerBound keys k lo hi bound with
  | case1 lo hi bound hlt mid hmid hprobe ih =>
    rw [probes_of_lt hlt hmid, if_pos hprobe, List.forall_mem_cons] at agree
    have hmid' : mid < others.size := by omega
    have hread : others[mid]? = keys[mid]? := agree.1
    rw [Array.getElem?_eq_getElem hmid', Array.getElem?_eq_getElem hmid, Option.some.injEq] at hread
    rw [lowerBound, dif_pos hlt, if_pos (hread ▸ hprobe)]
    exact ih bound' agree.2
  | case2 lo hi bound hlt mid hmid hprobe ih =>
    rw [probes_of_lt hlt hmid, if_neg hprobe, List.forall_mem_cons] at agree
    have hmid' : mid < others.size := by omega
    have hread : others[mid]? = keys[mid]? := agree.1
    rw [Array.getElem?_eq_getElem hmid', Array.getElem?_eq_getElem hmid, Option.some.injEq] at hread
    rw [lowerBound, dif_pos hlt, if_neg (hread ▸ hprobe)]
    exact ih _ agree.2
  | case3 lo hi bound hge =>
    rw [lowerBound, dif_neg hge]

/-- Search answers `vacant i` exactly when `i` separates the smaller keys from the greater ones. -/
theorem WellFormed.search_eq_vacant_iff {p : Sorted V} (wf : p.WellFormed) (k : Int) (i : Nat) :
    p.search k = .vacant i ↔ i ≤ p.keys.size ∧
      (∀ j (hj : j < p.keys.size), j < i → p.keys[j] < k) ∧
      (∀ j (hj : j < p.keys.size), i ≤ j → k < p.keys[j]) := by
  constructor
  · intro h
    exact (wf.search_eq_vacant h).2
  · rintro ⟨bound, below, above⟩
    cases hs : p.search k with
    | stored m =>
      obtain ⟨hm, hk⟩ := Array.getElem?_eq_some_iff.mp ((wf.search_eq_stored_iff k m).mp hs)
      by_cases hmi : m < i
      · have := below m hm hmi
        omega
      · have := above m hm (by omega)
        omega
    | vacant m =>
      obtain ⟨-, bound', below', above'⟩ := wf.search_eq_vacant hs
      congr 1
      by_contra hne
      by_cases hmi : m < i
      · have := below m (by omega) hmi
        have := above' m (by omega) (Nat.le_refl m)
        omega
      · have := above i (by omega) (Nat.le_refl i)
        have := below' i (by omega) (by omega)
        omega

theorem head?_eq_some_iff {ks : List Int} (asc : ks.Pairwise (· < ·)) (m : Int) :
    ks.head? = some m ↔ IsLeast {k | k ∈ ks} m := by
  cases ks with
  | nil => simp [IsLeast]
  | cons a rest =>
    rw [List.pairwise_cons] at asc
    have hleast : IsLeast {k | k ∈ a :: rest} a := by
      constructor
      · simp
      · intro k hk
        rcases List.mem_cons.mp hk with rfl | hk
        · exact le_refl k
        · exact (asc.1 k hk).le
    constructor
    · intro h
      cases h
      exact hleast
    · intro h
      rw [List.head?_cons, hleast.unique h]

namespace WellFormed

variable {p : Sorted V} (wf : p.WellFormed)
include wf

theorem firstKey?_eq_some_iff (m : Int) :
    p.firstKey? = some m ↔ IsLeast {k | k ∈ p.keys.toList} m := by
  rw [firstKey?_eq, head?_eq_some_iff wf.ascending]

/-- What follows a stored key are the keys above it, and they ascend. -/
theorem successor_of_mem {k : Int} (hk : k ∈ p.keys.toList) :
    ∃ rest, p.successor k = .ofRest rest ∧ rest.Pairwise (· < ·) ∧
      ∀ j, j ∈ rest ↔ j ∈ p.keys.toList ∧ k < j := by
  obtain ⟨pre, rest, hsplit⟩ := List.append_of_mem hk
  have asc := wf.ascending
  rw [hsplit, List.pairwise_append, List.pairwise_cons] at asc
  obtain ⟨-, ⟨hrest, asc⟩, hpre⟩ := asc
  refine ⟨rest, wf.successor_of_split hsplit, asc, fun j => ?_⟩
  rw [hsplit, List.mem_append, List.mem_cons]
  constructor
  · intro hj
    exact ⟨.inr (.inr hj), hrest j hj⟩
  · rintro ⟨hj | rfl | hj, hkj⟩
    · have := hpre j hj k (by simp)
      omega
    · omega
    · exact hj

theorem successor_eq_absent_iff (k : Int) : p.successor k = .absent ↔ k ∉ p.keys.toList := by
  constructor
  · intro h hk
    obtain ⟨rest, hrest, -⟩ := wf.successor_of_mem hk
    rw [hrest] at h
    cases rest <;> cases h
  · exact wf.successor_of_not_mem

theorem successor_eq_next_iff (k m : Int) : p.successor k = .next m ↔
    k ∈ p.keys.toList ∧ IsLeast {j | j ∈ p.keys.toList ∧ k < j} m := by
  by_cases hk : k ∈ p.keys.toList
  · obtain ⟨rest, hrest, asc, hmem⟩ := wf.successor_of_mem hk
    have habove : {j | j ∈ p.keys.toList ∧ k < j} = {j | j ∈ rest} := by
      ext j
      exact (hmem j).symm
    rw [habove, ← head?_eq_some_iff asc, hrest]
    cases rest <;> simp [hk]
  · simp [wf.successor_of_not_mem hk, hk]

theorem successor_eq_last_iff (k : Int) : p.successor k = .last ↔
    k ∈ p.keys.toList ∧ ∀ j ∈ p.keys.toList, j ≤ k := by
  by_cases hk : k ∈ p.keys.toList
  · obtain ⟨rest, hrest, -, hmem⟩ := wf.successor_of_mem hk
    have hnone : (∀ j ∈ p.keys.toList, j ≤ k) ↔ rest = [] := by
      simp only [List.eq_nil_iff_forall_not_mem, hmem, not_and, not_lt]
    rw [hnone, hrest]
    cases rest <;> simp [hk]
  · simp [wf.successor_of_not_mem hk, hk]

/-- Under a stored key the value is exchanged where it stands. -/
theorem entries_insert_stored {i : Nat} {k : Int} {old : V} (h : p.entries[i]? = some (k, old))
    (v : V) : (p.insert k v).entries = p.entries.set i (k, v) := by
  have hk : p.keys.toList[i]? = some k := (List.getElem?_zip_eq_some.mp h).1
  have hs : p.search k = .stored i := by
    rw [wf.search_eq_stored_iff, ← Array.getElem?_toList, hk]
  have hinsert : p.insert k v = ⟨p.keys, p.values.setIfInBounds i v⟩ := by
    simp only [Sorted.insert, hs]
  rw [hinsert, entries, entries, Array.toList_setIfInBounds, zip_set v hk]

theorem mem_keys_insert (k : Int) (v : V) (j : Int) :
    j ∈ (p.insert k v).keys.toList ↔ j = k ∨ j ∈ p.keys.toList := by
  rw [← wf.entries_keys, ← (wf.insert k v).entries_keys]
  exact (wf.inserted k v).mem_keys j

theorem get?_insert (k : Int) (v : V) (j : Int) :
    (p.insert k v).get? j = if j == k then some v else p.get? j := by
  rw [wf.get?_eq_lookup, (wf.insert k v).get?_eq_lookup]
  exact (wf.inserted k v).lookup j

end WellFormed

/-- Entries written one after another. -/
def ofEntries (es : List (Int × V)) : Sorted V := es.foldl (fun p e => p.insert e.1 e.2) empty

theorem ofEntries_concat (es : List (Int × V)) (e : Int × V) :
    ofEntries (es ++ [e]) = (ofEntries es).insert e.1 e.2 := by
  simp [ofEntries]

theorem wellFormed_ofEntries (es : List (Int × V)) : (ofEntries es).WellFormed := by
  induction es using List.reverseRecOn with
  | nil => exact wellFormed_empty
  | append_singleton es e ih =>
    rw [ofEntries_concat]
    exact ih.insert e.1 e.2

theorem mem_keys_ofEntries (es : List (Int × V)) (k : Int) :
    k ∈ (ofEntries es).keys.toList ↔ k ∈ es.map Prod.fst := by
  induction es using List.reverseRecOn with
  | nil => simp [ofEntries]
  | append_singleton es e ih =>
    rw [ofEntries_concat, (wellFormed_ofEntries es).mem_keys_insert, ih]
    simp [or_comm]

theorem get?_ofEntries (es : List (Int × V)) (k : Int) :
    (ofEntries es).get? k = es.reverse.lookup k := by
  induction es using List.reverseRecOn with
  | nil => exact wellFormed_empty.get?_eq_lookup k
  | append_singleton es e ih =>
    rw [ofEntries_concat, (wellFormed_ofEntries es).get?_insert, ih, List.reverse_concat,
      List.lookup_cons]
    cases k == e.1 <;> rfl

/-- The search in ascending keys reads inside the array only, few positions and nothing else, and ends
where the key is or, when it is not there, where the smaller keys end and the greater ones begin. So
after any insertions the keys ascend, a lookup finds the value inserted last, an insertion under a
stored key exchanges that value and nothing else, the first key is the least one, and the successor of a
stored key is the least key above it. -/
theorem search_keeps_order :
    (∀ p : Sorted V, p.WellFormed → ∀ k : Int,
      (∀ i ∈ probes p.keys k 0 p.keys.size, i < p.keys.size) ∧
      (probes p.keys k 0 p.keys.size).length ≤ Nat.clog 2 (p.keys.size + 1) ∧
      (∀ (others : Array Int) (bound : p.keys.size ≤ others.size),
        (∀ i ∈ probes p.keys k 0 p.keys.size, others[i]? = p.keys[i]?) →
        lowerBound others k 0 p.keys.size bound =
          lowerBound p.keys k 0 p.keys.size (Nat.le_refl _)) ∧
      (∀ i, p.search k = .stored i ↔ p.keys[i]? = some k) ∧
      (∀ i, p.search k = .vacant i ↔ i ≤ p.keys.size ∧
        (∀ j (hj : j < p.keys.size), j < i → p.keys[j] < k) ∧
        (∀ j (hj : j < p.keys.size), i ≤ j → k < p.keys[j]))) ∧
    ∀ es : List (Int × V),
      let p := ofEntries es
      let written := es.map Prod.fst
      (p.entries.map Prod.fst).Pairwise (· < ·) ∧
      (∀ k, k ∈ p.entries.map Prod.fst ↔ k ∈ written) ∧
      (∀ k, p.get? k = es.reverse.lookup k) ∧
      (∀ i k old v, p.entries[i]? = some (k, old) →
        (p.insert k v).entries = p.entries.set i (k, v)) ∧
      (p.firstKey? = none ↔ es = []) ∧
      (∀ m, p.firstKey? = some m ↔ IsLeast {k | k ∈ written} m) ∧
      ∀ k, (p.successor k = .absent ↔ k ∉ written) ∧
        (p.successor k = .last ↔ k ∈ written ∧ ∀ j ∈ written, j ≤ k) ∧
        ∀ m, p.successor k = .next m ↔ k ∈ written ∧ IsLeast {j | j ∈ written ∧ k < j} m := by
  constructor
  · intro p wf k
    refine ⟨fun i hi => (mem_probes hi).2, length_probes_le p.keys k 0 p.keys.size, ?_,
      wf.search_eq_stored_iff k, wf.search_eq_vacant_iff k⟩
    intro others bound agree
    exact lowerBound_eq_of_probes (Nat.le_refl _) bound agree
  · intro es p written
    have wf : p.WellFormed := wellFormed_ofEntries es
    have hmem : ∀ k, k ∈ p.keys.toList ↔ k ∈ written := mem_keys_ofEntries es
    have hfirst := wf.firstKey?_eq_some_iff
    simp only [hmem] at hfirst
    refine ⟨wf.entries_keys ▸ wf.ascending, fun k => wf.entries_keys ▸ hmem k, get?_ofEntries es,
      fun i k old v h => wf.entries_insert_stored h v, ?_, hfirst, fun k => ⟨?_, ?_, fun m => ?_⟩⟩
    · rw [firstKey?_eq, List.head?_eq_none_iff, List.eq_nil_iff_forall_not_mem]
      simp only [hmem, ← List.eq_nil_iff_forall_not_mem]
      exact List.map_eq_nil_iff
    · rw [wf.successor_eq_absent_iff, hmem]
    · simp only [wf.successor_eq_last_iff, hmem]
    · simp only [wf.successor_eq_next_iff, hmem]

/-- The least and the greatest 64-bit number around zero, the greatest written twice. -/
theorem search_keeps_order_at_extremes :
    let least : Int := -0x8000000000000000
    let greatest : Int := 0x7fffffffffffffff
    let stored : Sorted Nat := ⟨#[least, 0, greatest], #[1, 2, 3]⟩
    let p := ofEntries [(greatest, 1), (least, 2), (0, 3), (greatest, 4)]
    stored.search greatest = .stored 2 ∧ stored.search 5 = .vacant 2 ∧
      (∀ i ∈ probes stored.keys 5 0 3, i < 3) ∧
      p.get? greatest = some 4 ∧ p.firstKey? = some least ∧ p.successor 0 = .next greatest ∧
      p.successor greatest = .last ∧ p.successor 5 = .absent := by
  intro least greatest stored p
  have wf : stored.WellFormed := ⟨rfl, by decide⟩
  obtain ⟨hsearch, hinsert⟩ := search_keeps_order (V := Nat)
  obtain ⟨hprobes, -, -, hstored, -⟩ := hsearch stored wf greatest
  obtain ⟨hprobes, -, -, -, hvacant⟩ := hsearch stored wf 5
  obtain ⟨-, -, hget, -, -, hfirst, hsuccessor⟩ :=
    hinsert [(greatest, 1), (least, 2), (0, 3), (greatest, 4)]
  refine ⟨(hstored 2).mpr rfl, (hvacant 2).mpr ⟨by decide, by decide, by decide⟩, hprobes,
    (hget greatest).trans (by decide), (hfirst least).mpr ⟨by decide, ?_⟩,
    ((hsuccessor 0).2.2 greatest).mpr ⟨by decide, by decide, ?_⟩,
    (hsuccessor greatest).2.1.mpr (by decide), (hsuccessor 5).1.mpr (by decide)⟩
  · intro k hk
    have hall : ∀ k ∈ [greatest, least, 0, greatest], least ≤ k := by decide
    exact hall k hk
  · intro k hk
    have hall : ∀ k ∈ [greatest, least, 0, greatest], 0 < k → greatest ≤ k := by decide
    exact hall k hk.1 hk.2

end ScriptTable.Sorted
