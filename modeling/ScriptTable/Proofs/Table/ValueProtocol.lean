import ScriptTable.Proofs.Table.Reachable
import ScriptTable.Proofs.Table.Walk

/-!
The walk over values. A caller that knows no keys hands every key back as a value, so each step goes
from a key to its value and from the value to the key again; nothing is lost on the way, since a key
holds a float in its canonical form. The walk over values is therefore the one over keys.
-/

namespace ScriptTable

namespace Value

/-- What a float is as a key, and what comes back from there. -/
theorem toKey?_float_canonical (x : Double) :
    (Value.float x).toKey?.map Key.toValue = some (.float x.canonical) ∧
      (Value.float x.canonical).toKey? = (Value.float x).toKey? := by
  constructor
  · rfl
  · simp [toKey?, Key.ofDouble, FloatKey.ofDouble, x.canonical_canonical]

theorem toKey?_float_eq_iff (x y : Double) :
    (Value.float x).toKey? = (Value.float y).toKey? ↔ x.sameKey y = true := by
  simp [toKey?, Key.ofDouble, FloatKey.ofDouble, Double.canonical_eq_iff]

/-- The values of keys are neither `none` nor tables. -/
theorem toKey?_isSome_iff (v : Value) : v.toKey?.isSome = true ↔ v ≠ .none ∧ v.isTable = false := by
  cases v <;> simp [toKey?, isTable]

end Value

namespace Table

variable {t : Table Value}

theorem successorKey_of_toKey? {v : Value} {k : Key} (h : v.toKey? = some k) :
    t.successorKey v = (t.nextKey k).map (·.map Key.toValue) := by
  rw [successorKey, h]

theorem successorKey_of_toKey?_eq_none {v : Value} (h : v.toKey? = none) :
    t.successorKey v = .error (.unknownKey v.render) := by
  rw [successorKey, h]

/-- Steps between which nothing is written pass the keys in order, and none fails. -/
theorem WellFormed.run_quiet (wf : t.WellFormed) {pre rest : List Key} (h : t.keys = pre ++ rest)
    (n : Nat) : Protocol.ofKeys.run ⟨t, rest.head?, pre⟩ (List.replicate n []) =
      .ok ⟨t, (rest.drop n).head?, pre ++ rest.take n⟩ := by
  induction n generalizing pre rest with
  | zero => simp
  | succ n ih =>
    cases rest with
    | nil => simp [Protocol.run_ended]
    | cons k rest =>
      have hstep : Protocol.ofKeys.step ⟨t, some k, pre⟩ [] = .ok ⟨t, rest.head?, pre ++ [k]⟩ :=
        congrArg (Except.map _) (wf.nextKey_of_split h)
      have hsplit : t.keys = (pre ++ [k]) ++ rest := by simp [h]
      rw [List.replicate_succ, List.head?_cons, Protocol.run_cons _ hstep, ih hsplit]
      simp

theorem WellFormed.run_values_quiet (wf : t.WellFormed) (n : Nat) :
    let walked := t.keys.map Key.toValue
    Protocol.ofValues.run (Protocol.ofValues.start t) (List.replicate n []) =
      .ok ⟨t, (walked.drop n).head?, walked.take n⟩ := by
  intro walked
  have hstart : Protocol.ofValues.start t =
      (Stage.mk t t.keys.head? []).map Key.toValue := by
    rw [← t.firstKey?_eq]
    rfl
  have hkeys : t.keys = [] ++ t.keys := rfl
  rw [hstart, Protocol.run_map_toValue, wf.run_quiet hkeys]
  simp [Except.map, Stage.map, walked, ← List.map_drop, ← List.map_take]

/-- The walk over values agrees with the typed one. Every key that is met comes back from its value,
and a lookup of that value finds what the key is paired with; no step fails and the walk passes the
values of the keys in order and ends. From any value that is a key it goes on as from the key, from
all floats that are one key alike, and from `none` or a table not at all, be it stored or not. -/
theorem value_protocol (reachable : t.Reachable) :
    let walked := t.pairs.map fun e => e.1.toValue
    (∀ e ∈ t.pairs, e.1.toValue.toKey? = some e.1 ∧ t.rawGet? e.1.toValue = some e.2) ∧
      (∀ v ∈ walked, v ≠ .none ∧ v.isTable = false) ∧
      (∀ n, Protocol.ofValues.run (Protocol.ofValues.start t) (List.replicate n []) =
        .ok ⟨t, (walked.drop n).head?, walked.take n⟩) ∧
      t.walk = ⟨walked, none, none⟩ ∧
      (∀ v : Value, v ≠ .none → v.isTable = false →
        ∃ k, v.toKey? = some k ∧ t.successorKey v = (t.nextKey k).map (·.map Key.toValue)) ∧
      (∀ x : Double, (Value.float x).toKey?.map Key.toValue = some (.float x.canonical) ∧
        (Value.float x.canonical).toKey? = (Value.float x).toKey?) ∧
      (∀ x y : Double, x.sameKey y = true →
        t.successorKey (.float x) = t.successorKey (.float y)) ∧
      ∀ v : Value, v = .none ∨ v.isTable = true →
        t.successorKey v = .error (.unknownKey v.render) := by
  intro walked
  have wf := reachable.wellFormed
  have hwalked : walked = t.keys.map Key.toValue := by
    rw [← wf.pairs_keys, List.map_map]
    rfl
  rw [hwalked]
  refine ⟨?_, ?_, wf.run_values_quiet, wf.walk_eq, ?_, Value.toKey?_float_canonical, ?_, ?_⟩
  · intro e he
    rw [wf.pairs_eq_entries] at he
    refine ⟨Value.toKey?_toValue e.1, ?_⟩
    rw [rawGet?, get?_toValue, wf.getKey?_eq_lookup]
    exact lookup_of_mem (wf.entries_keys ▸ wf.nodup_keys) he
  · intro v hv
    obtain ⟨k, -, rfl⟩ := List.mem_map.mp hv
    rw [← Value.toKey?_isSome_iff, Value.toKey?_toValue]
    rfl
  · intro v hnone htable
    obtain ⟨k, hk⟩ := Option.isSome_iff_exists.mp (v.toKey?_isSome_iff.mpr ⟨hnone, htable⟩)
    exact ⟨k, hk, successorKey_of_toKey? hk⟩
  · intro x y hxy
    have hkey := (Value.toKey?_float_eq_iff x y).mpr hxy
    exact (successorKey_of_toKey? rfl).trans (successorKey_of_toKey? hkey.symm).symm
  · intro v hv
    apply successorKey_of_toKey?_eq_none
    rw [← Option.not_isSome_iff_eq_none, v.toKey?_isSome_iff]
    rintro ⟨hnone, htable⟩
    rcases hv with rfl | hv
    · exact hnone rfl
    · rw [htable] at hv
      cases hv

/-- A NaN and negative zero as keys, and a table that is stored as a key but not walked to. -/
theorem value_protocol_of_floats :
    let other : Double := ⟨0xfff0000000000001⟩
    let t := ofWrites [.set (.float other) (.integer 1), .set (.float ⟨0x8000000000000000⟩) .none,
      .set (.table 3 .empty) .none]
    t.walk = ⟨[.float .nan, .float .zero], none, none⟩ ∧
      t.successorKey (.float .nan) = t.successorKey (.float other) ∧
      t.successorKey (.table 3 .empty) = .error (.unknownKey (Value.table 3 .empty).render) := by
  intro other t
  have hreachable : t.Reachable :=
    ((Reachable.empty.set (.float _) (.integer rfl)).set (.float _) .none).set (.table 3 .empty) .none
  have hkeys : t.pairs.map Prod.fst = [.ofDouble .nan, .ofDouble .zero] := by
    rw [hreachable.wellFormed.pairs_keys, keys_ofWrites]
    decide +kernel
  obtain ⟨-, -, -, hwalk, -, -, hfloats, hothers⟩ := value_protocol hreachable
  refine ⟨?_, hfloats _ _ (by decide), hothers _ (.inr rfl)⟩
  have hvalues : (t.pairs.map fun e => e.1.toValue) = (t.pairs.map Prod.fst).map Key.toValue := by
    rw [List.map_map]
    rfl
  rw [hwalk, hvalues, hkeys]
  rfl

end Table

end ScriptTable
