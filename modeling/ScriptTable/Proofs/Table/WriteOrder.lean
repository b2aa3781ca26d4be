import Mathlib.Data.List.Sort
import ScriptTable.Proofs.Table.Traversal

/-!
The traversal order of a table with a given history, read off the history alone: the whole numbers
written under, ascending, then the keys of each other kind in the order of their first writes.
-/

namespace ScriptTable

def Key.integer? : Key → Option Int
  | .integer n => some n
  | _ => none

/-- The order in which a traversal meets keys that were written in the given order. -/
def traversalOrder (ks : List Key) : List Key :=
  (ks.filterMap Key.integer?).eraseDups.mergeSort.map .integer ++
    [Kind.float, .text, .boolean].flatMap fun kd => (ks.filter (·.kind == kd)).eraseDups

theorem nodup_eraseDups {α : Type} [BEq α] [LawfulBEq α] (l : List α) : l.eraseDups.Nodup := by
  induction l using List.reverseRecOn with
  | nil => simp
  | append_singleton l a ih =>
    rw [eraseDups_concat]
    split
    · exact ih
    · rename_i h
      rw [← List.concat_eq_append, List.nodup_concat]
      exact ⟨fun ha => h (List.contains_iff_mem.mpr ha), ih⟩

/-- Distinct whole numbers, sorted. -/
theorem ascending_mergeSort_eraseDups (ns : List Int) :
    ns.eraseDups.mergeSort.Pairwise (· < ·) := by
  have hle : ns.eraseDups.mergeSort.Pairwise (fun a b => decide (a ≤ b) = true) :=
    List.pairwise_mergeSort (fun a b c hab hbc => by simp_all; omega)
      (fun a b => by simp; omega) _
  have hne : ns.eraseDups.mergeSort.Nodup :=
    (List.mergeSort_perm _ _).nodup_iff.mpr (nodup_eraseDups ns)
  apply (hle.and hne).imp
  rintro a b ⟨hab, hne⟩
  exact lt_of_le_of_ne (of_decide_eq_true hab) hne

/-- Adding an element unless it is there commutes with a renaming one to one. -/
theorem map_add {α β : Type} [BEq α] [LawfulBEq α] [BEq β] [LawfulBEq β] {f : α → β}
    (hf : ∀ a b, f a = f b → a = b) (l : List α) (a : α) :
    (if l.contains a then l else l ++ [a]).map f =
      if (l.map f).contains (f a) then l.map f else l.map f ++ [f a] := by
  have hcontains : (l.map f).contains (f a) = l.contains a := by
    rw [Bool.eq_iff_iff, List.contains_iff_mem, List.contains_iff_mem, List.mem_map]
    constructor
    · rintro ⟨b, hb, he⟩
      exact hf b a he ▸ hb
    · intro h
      exact ⟨a, h, rfl⟩
  rw [hcontains]
  split <;> simp

namespace Table

theorem keysOf_setKey_of_ne (t : Table Value) {k : Key} {kd : Kind} (v : Value)
    (h : kd ≠ k.kind) : (t.setKey k v).keysOf kd = t.keysOf kd := by
  cases k <;> cases kd <;> first | rfl | exact absurd rfl h

theorem keysOf_set_of_toKey?_eq_none (t : Table Value) {k : Value} (v : Value)
    (h : k.toKey? = none) (kd : Kind) : (t.set k v).keysOf kd = t.keysOf kd := by
  cases k <;> cases h <;> cases kd <;> rfl

theorem keys_set_of_toKey?_eq_none (t : Table Value) {k : Value} (v : Value)
    (h : k.toKey? = none) : (t.set k v).keys = t.keys :=
  List.flatMap_congr (fun kd _ => t.keysOf_set_of_toKey?_eq_none v h kd)

/-- The step: outside the whole numbers, a new key goes to the end of its kind. -/
theorem WellFormed.keysOf_setKey {t : Table Value} (wf : t.WellFormed) {k : Key} (v : Value)
    (hk : k.kind ≠ .integer) :
    (t.setKey k v).keysOf k.kind =
      if (t.keysOf k.kind).contains k then t.keysOf k.kind else t.keysOf k.kind ++ [k] := by
  cases k with
  | integer n => exact absurd rfl hk
  | float x =>
    simp only [Key.kind, Table.setKey, keysOf, wf.floats.keys_insert]
    exact map_add (fun a b h => Key.float.inj h) _ x
  | text s =>
    simp only [Key.kind, Table.setKey, keysOf, wf.texts.keys_insert]
    exact map_add (fun a b h => Key.text.inj h) _ s
  | boolean b =>
    simp only [Key.kind, Table.setKey, keysOf, wf.booleans.keys_insert]
    exact map_add (fun a b h => Key.boolean.inj h) _ b

/-- The run: the keys of a kind stand in the order of their first writes. -/
theorem keysOf_ofWrites (ws : List Write) {kd : Kind} (hkd : kd ≠ .integer) :
    (ofWrites ws).keysOf kd = ((keysWritten ws).filter (·.kind == kd)).eraseDups := by
  induction ws using List.reverseRecOn with
  | nil => cases kd <;> rfl
  | append_singleton ws w ih =>
    rw [ofWrites_concat, keysWritten_concat, List.filter_append]
    cases h : w.target.toKey? with
    | none =>
      rw [keysOf_set_of_toKey?_eq_none _ _ h, ih]
      simp
    | some k =>
      rw [set_of_toKey? _ h]
      by_cases hk : k.kind = kd
      · subst hk
        rw [(wellFormed_ofWrites ws).keysOf_setKey _ hkd, ih, ← eraseDups_concat]
        simp
      · rw [keysOf_setKey_of_ne _ _ (Ne.symm hk), ih]
        simp [hk]

theorem keysOf_integer_ofWrites (ws : List Write) :
    (ofWrites ws).keysOf .integer =
      ((keysWritten ws).filterMap Key.integer?).eraseDups.mergeSort.map .integer := by
  have wf := wellFormed_ofWrites ws
  have members : ∀ n, n ∈ (ofWrites ws).integers.keys.toList ↔
      n ∈ (keysWritten ws).filterMap Key.integer? := by
    intro n
    have hkey : n ∈ (ofWrites ws).integers.keys.toList ↔ .integer n ∈ (ofWrites ws).keys := by
      simp [mem_keys_iff, keysOf, Key.kind]
    rw [hkey, mem_keys_ofWrites_iff, List.mem_filterMap]
    constructor
    · intro h
      exact ⟨.integer n, h, rfl⟩
    · rintro ⟨k, hk, hn⟩
      cases k <;> cases hn
      exact hk
  rw [keysOf]
  congr 1
  apply wf.integers.ascending.eq_of_mem_iff (ascending_mergeSort_eraseDups _)
  intro n
  rw [List.mem_mergeSort, List.mem_eraseDups, members]

theorem keys_ofWrites (ws : List Write) :
    (ofWrites ws).keys = traversalOrder (keysWritten ws) := by
  rw [keys, traversalOrder, Kind.order, List.flatMap_cons, keysOf_integer_ofWrites]
  congr 1
  apply List.flatMap_congr
  intro kd hkd
  exact keysOf_ofWrites ws (by rintro rfl; simp at hkd)

/-- As many entries are traversed as different keys were written under. -/
theorem size_ofPairs (es : List (Value × Value)) :
    (ofPairs es).size = (es.filterMap fun e => e.1.toKey?).eraseDups.length := by
  have hwritten : keysWritten (es.map fun e => .set e.1 e.2) = es.filterMap fun e => e.1.toKey? := by
    rw [keysWritten, List.filterMap_map]
    rfl
  have hperm : (ofPairs es).keys.Perm (es.filterMap fun e => e.1.toKey?).eraseDups := by
    rw [List.perm_ext_iff_of_nodup (wellFormed_ofPairs es).nodup_keys (nodup_eraseDups _)]
    intro k
    rw [ofPairs_eq_ofWrites, mem_keys_ofWrites_iff, List.mem_eraseDups, hwritten]
  rw [size_eq, hperm.length_eq]

/-- Traversal is exact for every history. The order is that of the written keys; the protocol and the
iterator follow it, find each key once, with the last value written under it, and then end; any
other key is refused. -/
theorem traversal_ofWrites (ws : List Write) :
    let t := ofWrites ws
    let order := traversalOrder (keysWritten ws)
    t.firstKey? = order.head? ∧
    (∀ i k, order[i]? = some k → t.nextKey k = .ok order[i + 1]?) ∧
    (∀ k, k ∉ order → t.nextKey k = .error (.unknownKey k.render)) ∧
    t.pairs.map Prod.fst = order ∧
    (∀ e ∈ t.pairs, lastWritten ws e.1.toValue = some e.2) ∧
    (∀ n, t.pairsFrom n t.firstKey? = t.pairs.take n) ∧
    t.size = order.length ∧ order.Nodup ∧
    (∀ n, t.cursorAfter n = .ok order[n]?) := by
  intro t order
  have wf : t.WellFormed := wellFormed_ofWrites ws
  have hkeys : order = t.keys := (keys_ofWrites ws).symm
  rw [hkeys]
  refine ⟨t.firstKey?_eq, fun i k => wf.nextKey_of_getElem?, fun k => wf.nextKey_of_not_mem,
    wf.pairs_keys, ?_, ?_, t.size_eq, wf.nodup_keys, wf.cursorAfter_eq⟩
  · intro e he
    rw [wf.pairs_eq_entries] at he
    rw [← get?_ofWrites, get?_toValue, wf.getKey?_eq_lookup]
    exact lookup_of_mem (wf.entries_keys ▸ wf.nodup_keys) he
  · intro n
    rw [wf.pairs_eq_entries, wf.pairsFrom_firstKey?]

/-- From the last whole number over an empty partition to the first text. -/
theorem nextKey_over_empty_partition :
    (ofWrites [.set (.text "b") .none, .set (.integer 2) .none, .setKey (.text "a") .none]).nextKey
      (.integer 2) = .ok (some (.text "b")) := by
  have order : traversalOrder (keysWritten [.set (.text "b") .none, .set (.integer 2) .none,
      .setKey (.text "a") .none]) = [.integer 2, .text "b", .text "a"] := by
    simp [traversalOrder, keysWritten, Write.target, Value.toKey?, Key.toValue, Key.integer?,
      Key.kind, List.filterMap_cons, List.eraseDups_cons]
  have h := (traversal_ofWrites [.set (.text "b") .none, .set (.integer 2) .none,
    .setKey (.text "a") .none]).2.1 0 (.integer 2) (by rw [order]; rfl)
  rwa [order] at h

end Table

end ScriptTable
