import Mathlib.Data.List.Induction
import ScriptTable.Key
import ScriptTable.Partition.Ordered
import ScriptTable.Proofs.Partition.Sorted

/-!
The index of a partition in insertion order agrees with a scan of its entries. Keys are compared by an
equality that need not be identity, as long as equal keys have one hash: what is stored under a key is
then found under every key equal to it, and the first of them stays where it is.
-/

namespace ScriptTable

/-- The answer of a scan: what follows the first key that is equal to `k`. -/
def Successor.scan {K : Type} [BEq K] (k : K) : List K → Successor K
  | [] => .absent
  | j :: rest => if j == k then .ofRest rest else scan k rest

theorem Successor.scan_eq {K : Type} [BEq K] (k : K) (ks : List K) :
    scan k ks = match ks.findIdx? (· == k) with
      | some i => ofRest (ks.drop (i + 1))
      | none => absent := by
  induction ks with
  | nil => rfl
  | cons j rest ih =>
    rw [scan, List.findIdx?_cons, ih]
    cases h : j == k with
    | true => simp
    | false => cases rest.findIdx? (· == k) <;> simp

theorem Successor.after_eq {K : Type} (keys : Array K) (i : Nat) :
    after keys i = ofRest (keys.toList.drop (i + 1)) := by
  rw [after, ← Array.getElem?_toList, ← List.head?_drop]
  cases keys.toList.drop (i + 1) <;> rfl

/-- A scan of the pairing for a key finds the value at the position of the key. -/
theorem find?_zip {K V : Type} {ks : List K} {vs : List V} (aligned : ks.length = vs.length)
    (p : K → Bool) :
    ((ks.zip vs).find? fun e => p e.1).map Prod.snd = (ks.findIdx? p).bind (vs[·]?) := by
  induction ks generalizing vs with
  | nil => rfl
  | cons k ks ih =>
    cases vs with
    | nil => simp at aligned
    | cons v vs =>
      rw [List.zip_cons_cons, List.find?_cons, List.findIdx?_cons]
      cases h : p k with
      | true => simp
      | false =>
        rw [if_neg Bool.false_ne_true, ih (by simpa using aligned)]
        cases ks.findIdx? p <;> simp

/-- First occurrences, as a list grows at its end. -/
theorem eraseDupsBy_concat {α : Type} (r : α → α → Bool) (l : List α) (a : α) :
    (l ++ [a]).eraseDupsBy r =
      if (l.eraseDupsBy r).any (r a) then l.eraseDupsBy r else l.eraseDupsBy r ++ [a] := by
  have hloop : ∀ seen, List.eraseDupsBy.loop r (l ++ [a]) seen =
      if (List.eraseDupsBy.loop r l seen).any (r a) then List.eraseDupsBy.loop r l seen
      else List.eraseDupsBy.loop r l seen ++ [a] := by
    induction l with
    | nil =>
      intro seen
      cases h : seen.any (r a) <;> simp [List.eraseDupsBy.loop, h]
    | cons b l ih =>
      intro seen
      cases h : seen.any (r b) <;> simp [List.eraseDupsBy.loop, h, ih]
  exact hloop []

namespace Ordered

variable {K V : Type} [BEq K] [Hashable K] [EquivBEq K] [LawfulHashable K]

/-- The index holds exactly the stored keys, each with its position. -/
structure Indexed (p : Ordered K V) : Prop where
  aligned : p.keys.size = p.values.size
  positions : ∀ (k : K) (i : Nat),
    p.index[k]? = some i ↔ ∃ j, p.keys[i]? = some j ∧ (j == k) = true

omit [EquivBEq K] [LawfulHashable K] in
theorem firstKey?_eq (p : Ordered K V) : p.firstKey? = p.keys.toList.head? := by
  rw [firstKey?, ← Array.getElem?_toList, List.head?_eq_getElem?]

theorem indexed_empty : (empty : Ordered K V).Indexed := ⟨rfl, by simp⟩

namespace Indexed

variable {p : Ordered K V} (h : p.Indexed)
include h

/-- Two positions of equal keys would be two positions in the index. -/
theorem distinct : p.keys.toList.Pairwise fun a b => (a == b) = false := by
  rw [List.pairwise_iff_getElem]
  intro i j hi hj hij
  rw [← Bool.not_eq_true]
  intro hequal
  have hfirst := (h.positions p.keys.toList[j] i).mpr ⟨p.keys.toList[i], by simp, hequal⟩
  have hsecond := (h.positions p.keys.toList[j] j).mpr ⟨p.keys.toList[j], by simp, BEq.rfl⟩
  rw [hfirst] at hsecond
  cases hsecond
  omega

/-- What the index says is what a scan of the keys finds. -/
theorem index_eq_findIdx? (k : K) : p.index[k]? = p.keys.toList.findIdx? (· == k) := by
  cases hi : p.index[k]? with
  | some i =>
    obtain ⟨j, hj, hequal⟩ := (h.positions k i).mp hi
    rw [← Array.getElem?_toList] at hj
    obtain ⟨hlt, rfl⟩ := List.getElem?_eq_some_iff.mp hj
    symm
    rw [List.findIdx?_eq_some_iff_getElem]
    refine ⟨hlt, hequal, ?_⟩
    intro m hm hother
    have hsecond := (h.positions k m).mpr ⟨p.keys.toList[m], by simp, hother⟩
    rw [hi] at hsecond
    cases hsecond
    omega
  | none =>
    symm
    rw [List.findIdx?_eq_none_iff]
    intro j hj
    obtain ⟨i, hij⟩ := List.mem_iff_getElem?.mp hj
    rw [Array.getElem?_toList] at hij
    rw [← Bool.not_eq_true]
    intro hequal
    have hsome := (h.positions k i).mpr ⟨j, hij, hequal⟩
    rw [hi] at hsome
    cases hsome

theorem entries_keys : p.entries.map Prod.fst = p.keys.toList :=
  List.map_fst_zip (by simp [h.aligned])

/-- No position read from the index is out of bounds. -/
theorem lt_size {k : K} {i : Nat} (hi : p.index[k]? = some i) :
    i < p.keys.size ∧ i < p.values.size := by
  obtain ⟨j, hj, -⟩ := (h.positions k i).mp hi
  obtain ⟨hlt, -⟩ := Array.getElem?_eq_some_iff.mp hj
  exact ⟨hlt, h.aligned ▸ hlt⟩

/-- A lookup is a scan of the entries. -/
theorem get?_eq_find? (k : K) : p.get? k = (p.entries.find? (·.1 == k)).map Prod.snd := by
  have aligned : p.keys.toList.length = p.values.toList.length := by simp [h.aligned]
  rw [get?, entries, find?_zip aligned (· == k), h.index_eq_findIdx?]
  simp

theorem contains_eq_any (k : K) : p.contains k = p.entries.any (·.1 == k) := by
  have hkeys : p.entries.any (·.1 == k) = p.keys.toList.any (· == k) := by
    rw [← h.entries_keys, List.any_map]
    rfl
  rw [hkeys, contains, Std.ExtHashMap.contains_eq_isSome_getElem?, h.index_eq_findIdx?,
    List.findIdx?_isSome]

theorem successor_eq_scan (k : K) : p.successor k = .scan k (p.entries.map Prod.fst) := by
  rw [successor, h.index_eq_findIdx?, Successor.scan_eq, h.entries_keys]
  cases p.keys.toList.findIdx? (· == k) with
  | none => rfl
  | some i => exact Successor.after_eq p.keys i

end Indexed

/-- What an insertion does: either it sets the value at the position of an equal key, or it appends
key and value and records the new position. -/
theorem insert_eq (p : Ordered K V) (k : K) (v : V) :
    (∃ i, p.index[k]? = some i ∧ p.insert k v = { p with values := p.values.setIfInBounds i v }) ∨
    (p.index[k]? = none ∧
      p.insert k v = ⟨p.keys.push k, p.index.insert k p.keys.size, p.values.push v⟩) := by
  cases hi : p.index[k]? with
  | some i => exact .inl ⟨i, rfl, by simp only [insert, hi]⟩
  | none => exact .inr ⟨rfl, by simp only [insert, hi]⟩

namespace Indexed

variable {p : Ordered K V} (h : p.Indexed)
include h

/-- The step: key and position are recorded together. -/
theorem insert (k : K) (v : V) : (p.insert k v).Indexed := by
  obtain ⟨i, hi, he⟩ | ⟨hnone, he⟩ := p.insert_eq k v
  · rw [he]
    exact ⟨by simp [h.aligned], h.positions⟩
  · rw [he]
    constructor
    · simp [h.aligned]
    · intro j i
      rw [Std.ExtHashMap.getElem?_insert]
      cases hkj : k == j with
      | true =>
        have hnew : ∀ m, p.keys[i]? = some m → (m == j) = false := by
          intro m hm
          rw [← Bool.not_eq_true]
          intro hequal
          have hsome := (h.positions k i).mpr ⟨m, hm, BEq.trans hequal (BEq.symm hkj)⟩
          rw [hnone] at hsome
          cases hsome
        simp only [if_pos, Option.some.injEq, Array.getElem?_push]
        by_cases hi : i = p.keys.size
        · simp [hi, hkj]
        · simp only [hi, if_false, Ne.symm hi, false_iff, not_exists, not_and]
          intro m hm
          simp [hnew m hm]
      | false =>
        rw [if_neg Bool.false_ne_true, h.positions]
        by_cases hi : i = p.keys.size
        · simp [hi, hkj]
        · simp [Array.getElem?_push, hi]

/-- A new key goes to the end, and one that is equal to a stored key changes no key. -/
theorem keys_insert (k : K) (v : V) :
    (p.insert k v).keys.toList =
      if p.keys.toList.any (· == k) then p.keys.toList else p.keys.toList ++ [k] := by
  rw [← List.findIdx?_isSome, ← h.index_eq_findIdx?]
  obtain ⟨i, hi, he⟩ | ⟨hnone, he⟩ := p.insert_eq k v
  · simp [he, hi]
  · simp [he, hnone]

/-- A lookup sees the value of the last insertion under an equal key. -/
theorem get?_insert (k : K) (v : V) (j : K) :
    (p.insert k v).get? j = if k == j then some v else p.get? j := by
  obtain ⟨i, hi, he⟩ | ⟨-, he⟩ := p.insert_eq k v
  · have hlt := (h.lt_size hi).2
    rw [he, get?, get?]
    cases hkj : k == j with
    | true =>
      rw [Std.ExtHashMap.getElem?_congr (BEq.symm hkj), hi]
      simp [hlt]
    | false =>
      cases hm : p.index[j]? with
      | none => simp
      | some m =>
        have hne : i ≠ m := by
          rintro rfl
          obtain ⟨a, ha, hak⟩ := (h.positions k i).mp hi
          obtain ⟨b, hb, hbj⟩ := (h.positions j i).mp hm
          cases ha.symm.trans hb
          rw [BEq.trans (BEq.symm hak) hbj] at hkj
          cases hkj
        simp [hne]
  · rw [he, get?, get?, Std.ExtHashMap.getElem?_insert]
    cases hkj : k == j with
    | true => simp [h.aligned]
    | false =>
      cases hm : p.index[j]? with
      | none => simp
      | some m =>
        have hlt := (h.lt_size hm).2
        simp [Array.getElem?_push, Nat.ne_of_lt hlt]

end Indexed

/-- Entries written one after another. -/
def ofEntries (es : List (K × V)) : Ordered K V := es.foldl (fun p e => p.insert e.1 e.2) empty

theorem ofEntries_concat (es : List (K × V)) (e : K × V) :
    ofEntries (es ++ [e]) = (ofEntries es).insert e.1 e.2 := by
  simp [ofEntries]

theorem indexed_ofEntries (es : List (K × V)) : (ofEntries es).Indexed := by
  induction es using List.reverseRecOn with
  | nil => exact indexed_empty
  | append_singleton es e ih =>
    rw [ofEntries_concat]
    exact ih.insert e.1 e.2

/-- The keys are the first of each kind, in the order in which they were written. -/
theorem keys_ofEntries (es : List (K × V)) :
    (ofEntries es).keys.toList = (es.map Prod.fst).eraseDups := by
  induction es using List.reverseRecOn with
  | nil => rfl
  | append_singleton es e ih =>
    have hconcat := eraseDupsBy_concat (· == ·) (es.map Prod.fst) e.1
    simp only [BEq.comm (a := e.1)] at hconcat
    rw [ofEntries_concat, (indexed_ofEntries es).keys_insert, ih, List.map_append]
    exact hconcat.symm

theorem get?_ofEntries (es : List (K × V)) (k : K) :
    (ofEntries es).get? k = (es.reverse.find? (·.1 == k)).map Prod.snd := by
  induction es using List.reverseRecOn with
  | nil => simp [ofEntries, get?]
  | append_singleton es e ih =>
    rw [ofEntries_concat, (indexed_ofEntries es).get?_insert, ih, List.reverse_concat,
      List.find?_cons]
    cases e.1 == k <;> rfl

/-- After any insertions the index agrees with the entries. Their keys are distinct and stand in the
order of first insertion; the index holds exactly these, each with its position, so every position read
from it is one of an entry; and every reader gives what a scan of the entries gives, for stored keys and
others alike. The scan for a value finds the one that was inserted last. -/
theorem index_agrees (es : List (K × V)) :
    (ofEntries es).entries.map Prod.fst = (es.map Prod.fst).eraseDups ∧
    let p := ofEntries es
    let keys := p.entries.map Prod.fst
    (keys.Pairwise fun a b => (a == b) = false) ∧
    (∀ (k : K) (i : Nat), p.index[k]? = some i ↔ ∃ j, keys[i]? = some j ∧ (j == k) = true) ∧
    (∀ (k : K) (i : Nat), p.index[k]? = some i →
      i < p.entries.length ∧ i < p.keys.size ∧ i < p.values.size) ∧
    p.firstKey? = keys.head? ∧
    ∀ k, p.get? k = (p.entries.find? (·.1 == k)).map Prod.snd ∧
      p.get? k = (es.reverse.find? (·.1 == k)).map Prod.snd ∧
      p.contains k = p.entries.any (·.1 == k) ∧
      p.successor k = .scan k keys := by
  refine ⟨(indexed_ofEntries es).entries_keys.trans (keys_ofEntries es), ?_⟩
  intro p keys
  have h : p.Indexed := indexed_ofEntries es
  have hkeys : keys = p.keys.toList := h.entries_keys
  rw [hkeys]
  refine ⟨h.distinct, ?_, ?_, p.firstKey?_eq, ?_⟩
  · intro k i
    rw [h.positions]
    simp
  · intro k i hi
    have hlt := h.lt_size hi
    refine ⟨?_, hlt⟩
    rw [entries, List.length_zip, Array.length_toList, Array.length_toList]
    omega
  · intro k
    exact ⟨h.get?_eq_find? k, get?_ofEntries es k, h.contains_eq_any k,
      hkeys ▸ h.successor_eq_scan k⟩

/-- The zeros are one key, which keeps its place before NaN and takes the later value. -/
theorem index_agrees_of_zeros :
    let zero := FloatKey.ofDouble .zero
    let nan := FloatKey.ofDouble .nan
    let p := ofEntries [(zero, 1), (nan, 2), (.ofDouble ⟨0x8000000000000000⟩, 3)]
    p.entries.map Prod.fst = [zero, nan] ∧ p.get? zero = some 3 ∧ p.successor zero = .next nan ∧
      p.successor nan = .last ∧ p.successor (.ofDouble ⟨0x3ff0000000000000⟩) = .absent := by
  intro zero nan p
  obtain ⟨hkeys, -, -, -, -, hreaders⟩ :=
    index_agrees [(zero, 1), (nan, 2), (.ofDouble ⟨0x8000000000000000⟩, 3)]
  have hlisted : p.entries.map Prod.fst = [zero, nan] := hkeys.trans (by decide)
  have hsuccessor : ∀ k, p.successor k = .scan k [zero, nan] := by
    intro k
    rw [← hlisted]
    exact (hreaders k).2.2.2
  refine ⟨hlisted, ?_, ?_, ?_, ?_⟩
  · exact (hreaders zero).2.1.trans (by decide)
  · exact (hsuccessor zero).trans (by decide)
  · exact (hsuccessor nan).trans (by decide)
  · exact (hsuccessor _).trans (by decide)

end Ordered

end ScriptTable
