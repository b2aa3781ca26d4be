import Mathlib.Data.List.Nodup
import ScriptTable.Partition.Successor

/-!
What one write does to a list of entries, wherever the list is stored. Every partition keeps keys
and values in two arrays; the entries are their pairing, and all that lookups, sizes and traversals
see of a write follows from the relation `Inserted` between the entries before and after it.
-/

namespace ScriptTable

variable {K L V : Type}

/-- The second list is the first after writing `v` under `k`: the one entry of `k` changes its value
where it stands, or an entry is added somewhere. -/
inductive Inserted (k : K) (v : V) : List (K × V) → List (K × V) → Prop where
  | replace (pre post : List (K × V)) (old : V) (other : k ∉ (pre ++ post).map Prod.fst) :
      Inserted k v (pre ++ (k, old) :: post) (pre ++ (k, v) :: post)
  | add (pre post : List (K × V)) (other : k ∉ (pre ++ post).map Prod.fst) :
      Inserted k v (pre ++ post) (pre ++ (k, v) :: post)

theorem lookup_append_cons [BEq K] [LawfulBEq K] {pre post : List (K × V)} {k : K} (v : V)
    (other : k ∉ (pre ++ post).map Prod.fst) (j : K) :
    (pre ++ (k, v) :: post).lookup j = if j == k then some v else (pre ++ post).lookup j := by
  by_cases h : j = k
  · subst h
    have hpre : pre.lookup j = none := by
      rw [List.lookup_eq_none_iff]
      intro e he
      simp only [bne_iff_ne, ne_eq]
      rintro rfl
      exact other (List.mem_map_of_mem (List.mem_append_left _ he))
    simp [List.lookup_append, hpre]
  · have hjk : (j == k) = false := by simpa using h
    simp [List.lookup_append, List.lookup_cons, hjk]

theorem lookup_of_mem [BEq K] [LawfulBEq K] {es : List (K × V)} {k : K} {v : V}
    (nodup : (es.map Prod.fst).Nodup) (h : (k, v) ∈ es) : es.lookup k = some v := by
  obtain ⟨pre, post, rfl⟩ := List.append_of_mem h
  have other : k ∉ (pre ++ post).map Prod.fst := by
    simp only [List.map_append, List.map_cons] at nodup ⊢
    exact (List.nodup_middle.mp nodup).notMem
  rw [lookup_append_cons v other]
  simp

theorem lookup_isSome_iff_mem_keys [BEq K] [LawfulBEq K] {es : List (K × V)} {k : K} :
    (es.lookup k).isSome = true ↔ k ∈ es.map Prod.fst := by
  rw [List.lookup_isSome_iff]
  simp only [List.mem_map]
  constructor
  · rintro ⟨e, he, hk⟩
    exact ⟨e, he, (beq_iff_eq.mp hk).symm⟩
  · rintro ⟨e, he, rfl⟩
    exact ⟨e, he, by simp⟩

theorem lookup_eq_none_of_not_mem [BEq K] [LawfulBEq K] {es : List (K × V)} {k : K}
    (h : k ∉ es.map Prod.fst) : es.lookup k = none := by
  rw [← lookup_isSome_iff_mem_keys, Bool.not_eq_true, Option.isSome_eq_false_iff] at h
  exact Option.isNone_iff_eq_none.mp h

/-- Among distinct keys the order of the entries does not matter. -/
theorem lookup_eq_of_perm [BEq K] [LawfulBEq K] {es es' : List (K × V)} (perm : es.Perm es')
    (nodup : (es.map Prod.fst).Nodup) (k : K) : es.lookup k = es'.lookup k := by
  have hkeys := perm.map Prod.fst
  by_cases h : k ∈ es.map Prod.fst
  · obtain ⟨⟨k, v⟩, he, rfl⟩ := List.mem_map.mp h
    rw [lookup_of_mem nodup he, lookup_of_mem (hkeys.nodup_iff.mp nodup) (perm.mem_iff.mp he)]
  · rw [lookup_eq_none_of_not_mem h, lookup_eq_none_of_not_mem (mt hkeys.mem_iff.mpr h)]

/-- Keys renamed one to one keep their values. -/
theorem lookup_map_keys [BEq K] [LawfulBEq K] [BEq L] [LawfulBEq L] {f : K → L}
    (hf : ∀ a b, f a = f b → a = b) (es : List (K × V)) (k : K) :
    (es.map fun e => (f e.1, e.2)).lookup (f k) = es.lookup k := by
  induction es with
  | nil => rfl
  | cons e rest ih =>
    have hbeq : (f k == f e.1) = (k == e.1) := by
      rw [Bool.eq_iff_iff, beq_iff_eq, beq_iff_eq]
      exact ⟨hf _ _, congrArg f⟩
    simp only [List.map_cons, List.lookup_cons, hbeq, ih]
    cases e
    rfl

namespace Inserted

variable {k : K} {v : V} {es es' : List (K × V)}

theorem lookup [BEq K] [LawfulBEq K] (h : Inserted k v es es') (j : K) :
    es'.lookup j = if j == k then some v else es.lookup j := by
  cases h with
  | add pre post other => exact lookup_append_cons v other j
  | replace pre post old other =>
    rw [lookup_append_cons v other, lookup_append_cons old other]
    split <;> rfl

theorem keys_sublist (h : Inserted k v es es') :
    (es.map Prod.fst).Sublist (es'.map Prod.fst) := by
  cases h with
  | add pre post other =>
    simp only [List.map_append, List.map_cons]
    exact (List.Sublist.refl _).append (List.sublist_cons_self _ _)
  | replace pre post old other => simp

theorem mem_keys (h : Inserted k v es es') (j : K) :
    j ∈ es'.map Prod.fst ↔ j = k ∨ j ∈ es.map Prod.fst := by
  cases h <;> simp only [List.map_append, List.map_cons, List.mem_append, List.mem_cons] <;> tauto

theorem mem (h : Inserted k v es es') {e : K × V} (he : e ∈ es') : e = (k, v) ∨ e ∈ es := by
  cases h <;> simp only [List.mem_append, List.mem_cons] at he ⊢ <;> tauto

/-- Where the key is new, one entry is added. -/
theorem perm (h : Inserted k v es es') (fresh : k ∉ es.map Prod.fst) : es'.Perm ((k, v) :: es) := by
  cases h with
  | add pre post other => exact List.perm_middle
  | replace pre post old other => exact absurd (by simp) fresh

theorem map_keys {f : K → L} (hf : ∀ a b, f a = f b → a = b) (h : Inserted k v es es') :
    Inserted (f k) v (es.map fun e => (f e.1, e.2)) (es'.map fun e => (f e.1, e.2)) := by
  have image : ∀ l : List (K × V), k ∉ l.map Prod.fst →
      f k ∉ (l.map fun e => (f e.1, e.2)).map Prod.fst := by
    intro l hl hmem
    simp only [List.map_map, List.mem_map, Function.comp_apply] at hmem
    obtain ⟨e, he, hfe⟩ := hmem
    exact hl (hf _ _ hfe ▸ List.mem_map_of_mem he)
  cases h with
  | add pre post other =>
    simp only [List.map_append, List.map_cons]
    exact .add _ _ (by simpa only [List.map_append] using image _ other)
  | replace pre post old other =>
    simp only [List.map_append, List.map_cons]
    exact .replace _ _ old (by simpa only [List.map_append] using image _ other)

/-- A write in the middle of longer entries. -/
theorem append (h : Inserted k v es es') {front back : List (K × V)}
    (hfront : k ∉ front.map Prod.fst) (hback : k ∉ back.map Prod.fst) :
    Inserted k v (front ++ (es ++ back)) (front ++ (es' ++ back)) := by
  cases h with
  | add pre post other =>
    have h := Inserted.add (v := v) (front ++ pre) (post ++ back) (k := k) (by
      simp only [List.map_append, List.mem_append] at other ⊢
      tauto)
    simpa using h
  | replace pre post old other =>
    have h := Inserted.replace (v := v) (front ++ pre) (post ++ back) (k := k) old (by
      simp only [List.map_append, List.mem_append] at other ⊢
      tauto)
    simpa using h

end Inserted

theorem zip_set {ks : List K} {vs : List V} {i : Nat} {k : K} (v : V) (h : ks[i]? = some k) :
    ks.zip (vs.set i v) = (ks.zip vs).set i (k, v) := by
  induction ks generalizing vs i with
  | nil => simp at h
  | cons a ks ih =>
    cases vs with
    | nil => simp
    | cons b vs =>
      cases i with
      | zero => simp_all
      | succ i => simpa using ih h

theorem zip_insertIdx {ks : List K} {vs : List V} (aligned : ks.length = vs.length) {i : Nat}
    (k : K) (v : V) : (ks.insertIdx i k).zip (vs.insertIdx i v) = (ks.zip vs).insertIdx i (k, v) := by
  induction ks generalizing vs i with
  | nil =>
    have hvs : vs = [] := List.length_eq_zero_iff.mp aligned.symm
    subst hvs
    cases i <;> simp
  | cons a ks ih =>
    cases vs with
    | nil => simp at aligned
    | cons b vs =>
      cases i with
      | zero => simp
      | succ i => simpa using ih (by simpa using aligned)

/-- The value at the position of a key is the one that a scan finds. -/
theorem lookup_zip [BEq K] [LawfulBEq K] {ks : List K} {vs : List V}
    (aligned : ks.length = vs.length) (nodup : ks.Nodup) {i : Nat} {k : K} (h : ks[i]? = some k) :
    (ks.zip vs).lookup k = vs[i]? := by
  obtain ⟨hi, -⟩ := List.getElem?_eq_some_iff.mp h
  have hv : vs[i]? = some vs[i] := List.getElem?_eq_getElem (by omega)
  have hkeys : (ks.zip vs).map Prod.fst = ks := List.map_fst_zip (by omega)
  have hmem : (k, vs[i]) ∈ ks.zip vs :=
    List.mem_of_getElem? (List.getElem?_zip_eq_some.mpr ⟨h, hv⟩)
  rw [hv]
  apply lookup_of_mem _ hmem
  rwa [hkeys]

theorem exists_of_insertIdx {α : Type} (a : α) {l : List α} {i : Nat} (h : i ≤ l.length) :
    ∃ pre post, l = pre ++ post ∧ pre.length = i ∧ l.insertIdx i a = pre ++ a :: post := by
  obtain ⟨pre, post, hl, hlen, hi⟩ := List.exists_of_modifyTailIdx (List.cons a) h
  exact ⟨pre, post, hl, hlen, hi⟩

/-- Setting the value at the position of `k` is a write under `k`. -/
theorem inserted_zip_set {ks : List K} {vs : List V} (aligned : ks.length = vs.length)
    (nodup : ks.Nodup) {i : Nat} {k : K} (v : V) (h : ks[i]? = some k) :
    Inserted k v (ks.zip vs) (ks.zip (vs.set i v)) := by
  obtain ⟨hi, hki⟩ := List.getElem?_eq_some_iff.mp h
  have hzip : i < (ks.zip vs).length := by simp [List.length_zip]; omega
  have hsplit : ks.zip vs = (ks.zip vs).take i ++ (k, vs[i]) :: (ks.zip vs).drop (i + 1) := by
    have he : (ks.zip vs)[i] = (k, vs[i]) := by simp [hki]
    rw [← he, List.getElem_cons_drop, List.take_append_drop]
  have hkeys : (ks.zip vs).map Prod.fst = ks := List.map_fst_zip (by omega)
  have other : k ∉ ((ks.zip vs).take i ++ (ks.zip vs).drop (i + 1)).map Prod.fst := by
    rw [← hkeys, hsplit, List.map_append, List.map_cons, List.nodup_middle, ← List.map_append] at nodup
    exact nodup.notMem
  have hset : ks.zip (vs.set i v) =
      (ks.zip vs).take i ++ (k, v) :: (ks.zip vs).drop (i + 1) := by
    rw [zip_set v h, List.set_eq_take_append_cons_drop, if_pos hzip]
  rw [hset]
  conv => lhs; rw [hsplit]
  exact .replace _ _ _ other

/-- Inserting a key that is not there and its value at one position is a write under that key. -/
theorem inserted_zip_insertIdx {ks : List K} {vs : List V} (aligned : ks.length = vs.length)
    {i : Nat} {k : K} (v : V) (fresh : k ∉ ks) (hi : i ≤ ks.length) :
    Inserted k v (ks.zip vs) ((ks.insertIdx i k).zip (vs.insertIdx i v)) := by
  have hkeys : (ks.zip vs).map Prod.fst = ks := List.map_fst_zip (by omega)
  have hzip : i ≤ (ks.zip vs).length := by simp [List.length_zip]; omega
  obtain ⟨pre, post, hsplit, -, hinsert⟩ := exists_of_insertIdx (k, v) hzip
  rw [zip_insertIdx aligned, hinsert, hsplit]
  exact .add _ _ (by rwa [← hsplit, hkeys])

/-- So is inserting both at the end. -/
theorem inserted_zip_concat {ks : List K} {vs : List V} (aligned : ks.length = vs.length) {k : K}
    (v : V) (fresh : k ∉ ks) :
    Inserted k v (ks.zip vs) ((ks ++ [k]).zip (vs ++ [v])) := by
  have h := inserted_zip_insertIdx aligned v fresh (Nat.le_refl _)
  rw [List.insertIdx_length_self, aligned, List.insertIdx_length_self] at h
  exact h

end ScriptTable
