import Mathlib.Data.List.Induction
import ScriptTable.Proofs.Table.WellFormed

/-!
Histories of writes. Two values are the same key when a table cannot tell them apart, and what a
lookup gives is the value of the last write under the same key, whatever was written in between.
-/

namespace ScriptTable

/-- Floats that are one key: both zero, both NaN, or of the same bits. -/
def Double.sameKey (x y : Double) : Bool :=
  (x.isZero && y.isZero) || (x.isNaN && y.isNaN) || x == y

namespace Double

theorem isNaN_of_isZero {x : Double} (h : x.isZero = true) : x.isNaN = false := by
  simp only [isZero, beq_iff_eq] at h
  simp [isNaN, h]

@[simp] theorem isZero_canonical (x : Double) : x.canonical.isZero = x.isZero := by
  simp only [canonical]
  split
  · simp [*]
  · split <;> simp_all

@[simp] theorem isNaN_canonical (x : Double) : x.canonical.isNaN = x.isNaN := by
  simp only [canonical]
  split
  · rw [isNaN_of_isZero isZero_zero, isNaN_of_isZero ‹_›]
  · split <;> simp_all

theorem canonical_eq_iff (x y : Double) : x.canonical = y.canonical ↔ x.sameKey y = true := by
  simp only [sameKey, Bool.or_eq_true, Bool.and_eq_true, beq_iff_eq]
  constructor
  · intro h
    have hzero : x.isZero = y.isZero := by rw [← isZero_canonical, h, isZero_canonical]
    have hnan : x.isNaN = y.isNaN := by rw [← isNaN_canonical, h, isNaN_canonical]
    by_cases hx : x.isZero = true
    · exact .inl (.inl ⟨hx, hzero ▸ hx⟩)
    · by_cases hn : x.isNaN = true
      · exact .inl (.inr ⟨hn, hnan ▸ hn⟩)
      · rw [hzero] at hx
        rw [hnan] at hn
        have hxx : x.canonical = x := by simp [canonical, hzero, hnan, hx, hn]
        have hyy : y.canonical = y := by simp [canonical, hx, hn]
        exact .inr (hxx ▸ hyy ▸ h)
  · rintro ((⟨hx, hy⟩ | ⟨hx, hy⟩) | rfl)
    · simp [canonical, hx, hy]
    · have hxz : ¬x.isZero = true := fun h => by simp [isNaN_of_isZero h] at hx
      have hyz : ¬y.isZero = true := fun h => by simp [isNaN_of_isZero h] at hy
      simp [canonical, hx, hy, hxz, hyz]
    · rfl

end Double

namespace Value

/-- Values that are one key. `none` is no key, and tables are told apart by identity. -/
def sameKey : Value → Value → Bool
  | .integer m, .integer n => m == n
  | .float x, .float y => x.sameKey y
  | .text s, .text t => s == t
  | .boolean a, .boolean b => a == b
  | .table i _, .table j _ => i == j
  | _, _ => false

/-- Every value is no key, a table, or a key of one of the ordered partitions. -/
theorem key_cases (v : Value) :
    v = .none ∨ (∃ i t, v = .table i t) ∨ ∃ k, v.toKey? = some k := by
  cases v with
  | none => exact .inl rfl
  | table i t => exact .inr (.inl ⟨i, t, rfl⟩)
  | integer n => exact .inr (.inr ⟨_, rfl⟩)
  | float x => exact .inr (.inr ⟨_, rfl⟩)
  | text s => exact .inr (.inr ⟨_, rfl⟩)
  | boolean b => exact .inr (.inr ⟨_, rfl⟩)

theorem eq_none_iff (v : Value) : v = .none ↔ v.toKey? = Option.none ∧ v.identity? = Option.none := by
  cases v <;> simp [toKey?, identity?]

theorem sameKey_of_toKey? {v w : Value} {j k : Key} (hv : v.toKey? = some j)
    (hw : w.toKey? = some k) : v.sameKey w = (k == j) := by
  rw [Bool.eq_iff_iff, beq_iff_eq]
  cases v <;> cases hv <;> cases w <;> cases hw <;>
    simp [sameKey, Key.ofDouble, FloatKey.ofDouble, ← Double.canonical_eq_iff]
  all_goals exact eq_comm

theorem sameKey_eq_false {v w : Value} {k : Key} (hv : v.toKey? = some k)
    (hw : w.toKey? = Option.none) : v.sameKey w = false ∧ w.sameKey v = false := by
  cases v <;> cases hv <;> cases w <;> cases hw <;> exact ⟨rfl, rfl⟩

@[simp] theorem none_sameKey (v : Value) : Value.none.sameKey v = false := by
  cases v <;> rfl

@[simp] theorem sameKey_none (v : Value) : v.sameKey .none = false := by
  cases v <;> rfl

end Value

namespace Table

theorem set_of_toKey? (t : Table Value) {k : Value} {key : Key} (h : k.toKey? = some key)
    (v : Value) : t.set k v = t.setKey key v := by
  cases k <;> cases h <;> rfl

theorem get?_of_toKey? (t : Table Value) {k : Value} {key : Key} (h : k.toKey? = some key) :
    t.get? k = t.getKey? key := by
  cases k <;> cases h <;> rfl

theorem set_table (t : Table Value) (i : Identity) (u : Table Value) (v : Value) :
    t.set (.table i u) v = { t with fallback := t.fallback.insert (.table i u) v } := rfl

theorem get?_empty (k : Value) : (empty : Table Value).get? k = none := by
  cases k <;>
    simp [get?, empty, Sorted.get?, Sorted.search, Ordered.get?, Ordered.empty, Fallback.get?,
      Fallback.position?]

theorem get?_fallback (t : Table Value) (p : Fallback Value) {k : Value} {key : Key}
    (h : k.toKey? = some key) : ({ t with fallback := p } : Table Value).get? k = t.get? k := by
  cases k <;> cases h <;> rfl

namespace WellFormed

variable {t : Table Value} (wf : t.WellFormed)
include wf

/-- The step: a write is seen by the lookups of the same key and by no others. -/
theorem get?_set (k v j : Value) :
    (t.set k v).get? j = if k.sameKey j then some v else t.get? j := by
  rcases k.key_cases with rfl | ⟨i, u, rfl⟩ | ⟨key, hk⟩
  · simp
  · rcases j.key_cases with rfl | ⟨i', u', rfl⟩ | ⟨key', hj⟩
    · simp
    · rw [get?, get?, set_table, (wf.fallback.insert i u v).get?_eq_lookup,
        wf.fallback.get?_eq_lookup, (wf.fallback.inserted i u v).lookup, Value.sameKey,
        Bool.beq_comm]
    · rw [set_table, get?_fallback _ _ hj, (Value.sameKey_eq_false hj rfl).2]
      simp
  · rw [t.set_of_toKey? hk]
    rcases j.key_cases with rfl | ⟨i', u', rfl⟩ | ⟨key', hj⟩
    · simp
    · rw [get?, get?, fallback_setKey, (Value.sameKey_eq_false hk rfl).1]
      simp
    · rw [get?_of_toKey? _ hj, get?_of_toKey? _ hj, wf.getKey?_setKey,
        Value.sameKey_of_toKey? hk hj]

end WellFormed

end Table

/-- A write, by any of the three ways to write. -/
inductive Write where
  | set (k v : Value)
  | rawSet (k v : Value)
  | setKey (k : Key) (v : Value)

namespace Write

/-- What is written under, as a value. -/
def target : Write → Value
  | .set k _ | .rawSet k _ => k
  | .setKey k _ => k.toValue

def value : Write → Value
  | .set _ v | .rawSet _ v | .setKey _ v => v

def apply (t : Table Value) : Write → Table Value
  | .set k v => t.set k v
  | .rawSet k v => t.rawSet k v
  | .setKey k v => t.setKey k v

theorem apply_eq_set (t : Table Value) (w : Write) : w.apply t = t.set w.target w.value := by
  cases w with
  | set k v => rfl
  | rawSet k v => rfl
  | setKey k v => exact (t.set_toValue k v).symm

end Write

/-- The value of the last write under the same key. -/
def lastWritten (ws : List Write) (k : Value) : Option Value :=
  (ws.reverse.find? fun w => w.target.sameKey k).map Write.value

/-- The keys of the ordered partitions written under, in order, with repetitions. -/
def keysWritten (ws : List Write) : List Key := ws.filterMap fun w => w.target.toKey?

/-- The identities of the tables written under, in order, with repetitions. -/
def identitiesWritten (ws : List Write) : List Identity :=
  ws.filterMap fun w => w.target.identity?

@[simp] theorem lastWritten_nil (k : Value) : lastWritten [] k = none := rfl

theorem lastWritten_concat (ws : List Write) (w : Write) (k : Value) :
    lastWritten (ws ++ [w]) k = if w.target.sameKey k then some w.value else lastWritten ws k := by
  rw [lastWritten, List.reverse_concat, List.find?_cons]
  cases h : w.target.sameKey k <;> simp [lastWritten]

theorem lastWritten_isSome_iff (ws : List Write) (k : Value) :
    (lastWritten ws k).isSome = true ↔ ∃ w ∈ ws, w.target.sameKey k = true := by
  simp [lastWritten, List.find?_isSome]

theorem lastWritten_of_split {pre post : List Write} {w : Write} {k : Value}
    (same : w.target.sameKey k = true) (last : ∀ u ∈ post, u.target.sameKey k = false) :
    lastWritten (pre ++ w :: post) k = some w.value := by
  induction post using List.reverseRecOn with
  | nil => rw [lastWritten_concat, if_pos same]
  | append_singleton post u ih =>
    rw [List.forall_mem_append, List.forall_mem_singleton] at last
    rw [← List.cons_append, ← List.append_assoc, lastWritten_concat, last.2, if_neg (by decide)]
    exact ih last.1

theorem keysWritten_concat (ws : List Write) (w : Write) :
    keysWritten (ws ++ [w]) = keysWritten ws ++ w.target.toKey?.toList := by
  rw [keysWritten, List.filterMap_append]
  cases h : w.target.toKey? <;> simp [keysWritten, h]

theorem identitiesWritten_concat (ws : List Write) (w : Write) :
    identitiesWritten (ws ++ [w]) = identitiesWritten ws ++ w.target.identity?.toList := by
  rw [identitiesWritten, List.filterMap_append]
  cases h : w.target.identity? <;> simp [identitiesWritten, h]

/-- First occurrences, as a list grows at its end. -/
theorem eraseDups_concat {α : Type} [BEq α] [LawfulBEq α] (l : List α) (a : α) :
    (l ++ [a]).eraseDups =
      if l.eraseDups.contains a then l.eraseDups else l.eraseDups ++ [a] := by
  rw [List.contains_eq_any_beq]
  exact eraseDupsBy_concat (· == ·) l a

namespace Table

/-- The table after a list of writes. -/
def after (t : Table Value) (ws : List Write) : Table Value := ws.foldl Write.apply t

def ofWrites (ws : List Write) : Table Value := empty.after ws

@[simp] theorem after_nil (t : Table Value) : t.after [] = t := rfl

theorem after_cons (t : Table Value) (w : Write) (ws : List Write) :
    t.after (w :: ws) = (w.apply t).after ws := rfl

theorem after_append (t : Table Value) (us ws : List Write) :
    t.after (us ++ ws) = (t.after us).after ws := List.foldl_append

theorem ofWrites_concat (ws : List Write) (w : Write) :
    ofWrites (ws ++ [w]) = (ofWrites ws).set w.target w.value := by
  rw [ofWrites, after_append, ← w.apply_eq_set]
  rfl

theorem WellFormed.after {t : Table Value} (wf : t.WellFormed) (ws : List Write) :
    (t.after ws).WellFormed := by
  induction ws generalizing t with
  | nil => exact wf
  | cons w ws ih =>
    rw [after_cons, w.apply_eq_set]
    exact ih (wf.set w.target w.value)

theorem wellFormed_ofWrites (ws : List Write) : (ofWrites ws).WellFormed :=
  wellFormed_empty.after ws

/-- The run: a lookup after a history gives the last value written under the key. -/
theorem get?_ofWrites (ws : List Write) (k : Value) : (ofWrites ws).get? k = lastWritten ws k := by
  induction ws using List.reverseRecOn with
  | nil => exact get?_empty k
  | append_singleton ws w ih =>
    rw [ofWrites_concat, (wellFormed_ofWrites ws).get?_set, lastWritten_concat, ih]

theorem mem_keys_ofWrites (ws : List Write) (k : Key) :
    k ∈ (ofWrites ws).keys ↔ (lastWritten ws k.toValue).isSome = true := by
  rw [← get?_ofWrites, get?_toValue, (wellFormed_ofWrites ws).getKey?_isSome_iff]

theorem mem_keys_ofWrites_iff (ws : List Write) (k : Key) :
    k ∈ (ofWrites ws).keys ↔ k ∈ keysWritten ws := by
  rw [mem_keys_ofWrites, lastWritten_isSome_iff, keysWritten, List.mem_filterMap]
  constructor
  · rintro ⟨w, hw, same⟩
    refine ⟨w, hw, ?_⟩
    cases h : w.target.toKey? with
    | none =>
      rw [(Value.sameKey_eq_false (Value.toKey?_toValue k) h).2] at same
      cases same
    | some key =>
      rw [Value.sameKey_of_toKey? h (Value.toKey?_toValue k), beq_iff_eq] at same
      rw [same]
  · rintro ⟨w, hw, hk⟩
    refine ⟨w, hw, ?_⟩
    rw [Value.sameKey_of_toKey? hk (Value.toKey?_toValue k)]
    simp

/-- Pairs written one after another are a history. -/
theorem ofPairs_eq_ofWrites (es : List (Value × Value)) :
    ofPairs es = ofWrites (es.map fun e => .set e.1 e.2) := by
  rw [ofPairs, ofWrites, after, List.foldl_map]
  rfl

theorem get?_ofPairs_of_split {pre post : List (Value × Value)} {j k v : Value}
    (same : k.sameKey j = true) (last : ∀ e ∈ post, e.1.sameKey j = false) :
    (ofPairs (pre ++ (k, v) :: post)).get? j = some v := by
  rw [ofPairs_eq_ofWrites, get?_ofWrites, List.map_append, List.map_cons]
  exact lastWritten_of_split same (List.forall_mem_map.mpr last)

theorem fallback_identities_ofWrites (ws : List Write) :
    (ofWrites ws).fallback.identities = (identitiesWritten ws).eraseDups := by
  induction ws using List.reverseRecOn with
  | nil => rfl
  | append_singleton ws w ih =>
    rw [ofWrites_concat, identitiesWritten_concat]
    rcases w.target.key_cases with h | ⟨i, u, h⟩ | ⟨key, h⟩
    · simp [h, ih, Value.identity?]
    · rw [h, set_table, (wellFormed_ofWrites ws).fallback.identities_insert, ih]
      exact (eraseDups_concat _ i).symm
    · have hid : w.target.identity? = none := by
        cases hw : w.target <;> rw [hw] at h <;> cases h <;> rfl
      rw [set_of_toKey? _ h, fallback_setKey, ih, hid]
      simp

theorem WellFormed.isEmpty_iff {t : Table Value} (wf : t.WellFormed) :
    t.isEmpty = true ↔ t.keys = [] ∧ t.fallback.identities = [] := by
  rw [isEmpty, Bool.and_eq_true, beq_iff_eq, size_eq, List.length_eq_zero_iff,
    ← List.length_eq_zero_iff (l := t.fallback.identities), wf.fallback.length_identities]
  simp [Fallback.isEmpty, Fallback.size]

theorem isEmpty_ofWrites_iff (ws : List Write) :
    (ofWrites ws).isEmpty = true ↔ ∀ w ∈ ws, w.target = .none := by
  have hkeys : (ofWrites ws).keys = [] ↔ ∀ w ∈ ws, w.target.toKey? = none := by
    rw [← List.filterMap_eq_nil_iff, ← keysWritten, List.eq_nil_iff_forall_not_mem,
      List.eq_nil_iff_forall_not_mem]
    simp only [mem_keys_ofWrites_iff]
  have hids : (ofWrites ws).fallback.identities = [] ↔ ∀ w ∈ ws, w.target.identity? = none := by
    rw [← List.filterMap_eq_nil_iff, ← identitiesWritten, fallback_identities_ofWrites,
      List.eq_nil_iff_forall_not_mem, List.eq_nil_iff_forall_not_mem]
    simp only [List.mem_eraseDups]
  rw [(wellFormed_ofWrites ws).isEmpty_iff, hkeys, hids]
  constructor
  · rintro ⟨hk, hi⟩ w hw
    exact w.target.eq_none_iff.mpr ⟨hk w hw, hi w hw⟩
  · intro h
    exact ⟨fun w hw => (w.target.eq_none_iff.mp (h w hw)).1,
      fun w hw => (w.target.eq_none_iff.mp (h w hw)).2⟩

/-- The last write under a key wins, whichever lookup asks, and the two sizes that traversal does not
see count the tables written under and the writes under no key. -/
theorem lookups_ofWrites (ws : List Write) (k : Value) :
    (ofWrites ws).get? k = lastWritten ws k ∧
    (ofWrites ws).rawGet? k = lastWritten ws k ∧
    (k ≠ .none → k.isTable = false → ∃ key, k.toKey? = some key ∧
      (ofWrites ws).getKey? key = lastWritten ws k ∧
      ((ofWrites ws).containsKey key = true ↔ (lastWritten ws k).isSome = true)) ∧
    (∀ s, (ofWrites ws).getText? s = (ofWrites ws).get? (.text s)) ∧
    (ofWrites ws).fallback.size = (identitiesWritten ws).eraseDups.length ∧
    ((ofWrites ws).isEmpty = true ↔ ∀ w ∈ ws, w.target = .none) := by
  have wf := wellFormed_ofWrites ws
  refine ⟨get?_ofWrites ws k, get?_ofWrites ws k, ?_, fun s => rfl, ?_, isEmpty_ofWrites_iff ws⟩
  · intro hnone htable
    rcases k.key_cases with rfl | ⟨i, u, rfl⟩ | ⟨key, hk⟩
    · exact absurd rfl hnone
    · cases htable
    · have hget : (ofWrites ws).getKey? key = lastWritten ws k := by
        rw [← get?_of_toKey? _ hk, get?_ofWrites]
      refine ⟨key, hk, hget, ?_⟩
      rw [← hget, wf.containsKey_iff, wf.getKey?_isSome_iff]
  · rw [← wf.fallback.length_identities, fallback_identities_ofWrites]

/-- A write under 0.0 after one under -0.0. -/
theorem getKey?_of_both_zeros :
    ∃ key, (Value.float ⟨0x8000000000000000⟩).toKey? = some key ∧
      (ofWrites [.set (.float ⟨0x8000000000000000⟩) (.integer 1),
        .rawSet (.float ⟨0⟩) (.integer 2)]).getKey? key = some (.integer 2) := by
  obtain ⟨key, hkey, hget, -⟩ := (lookups_ofWrites [.set (.float ⟨0x8000000000000000⟩) (.integer 1),
    .rawSet (.float ⟨0⟩) (.integer 2)] (.float ⟨0x8000000000000000⟩)).2.2.1 nofun rfl
  exact ⟨key, hkey, hget⟩

end Table

end ScriptTable
