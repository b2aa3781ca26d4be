import ScriptTable.Proofs.Table.KeyOrder
import ScriptTable.Proofs.Table.Reachable

/-!
Two writes in either order. A write changes the lookups of its key alone, and the order of the keys
only by adding a new one at an end; so two orders of writing differ where two new keys are added to
one end, and nowhere else.
-/

namespace ScriptTable

namespace Value

/-- Values that are one key are the same key of an ordered partition, or tables of one identity. -/
theorem sameKey_iff {v w : Value} : v.sameKey w = true ↔
    (∃ k, v.toKey? = some k ∧ w.toKey? = some k) ∨ ∃ i s u, v = .table i s ∧ w = .table i u := by
  constructor
  · intro h
    rcases v.key_cases with rfl | ⟨i, s, rfl⟩ | ⟨j, hv⟩
    · simp at h
    · rcases w.key_cases with rfl | ⟨i', u, rfl⟩ | ⟨k, hw⟩
      · simp at h
      · exact .inr ⟨i, s, u, rfl, by rw [beq_iff_eq.mp h]⟩
      · rw [(sameKey_eq_false hw rfl).2] at h
        cases h
    · rcases w.key_cases with rfl | ⟨i', u, rfl⟩ | ⟨k, hw⟩
      · simp at h
      · rw [(sameKey_eq_false hv rfl).1] at h
        cases h
      · rw [sameKey_of_toKey? hv hw, beq_iff_eq] at h
        exact .inl ⟨j, hv, h ▸ hw⟩
  · rintro (⟨k, hv, hw⟩ | ⟨i, s, u, rfl, rfl⟩)
    · rw [sameKey_of_toKey? hv hw, beq_self_eq_true]
    · exact beq_self_eq_true i

theorem sameKey_symm {v w : Value} (h : v.sameKey w = true) : w.sameKey v = true := by
  rw [sameKey_iff] at h ⊢
  rcases h with ⟨k, hv, hw⟩ | ⟨i, s, u, rfl, rfl⟩
  · exact .inl ⟨k, hw, hv⟩
  · exact .inr ⟨i, u, s, rfl, rfl⟩

theorem sameKey_comm (v w : Value) : v.sameKey w = w.sameKey v := by
  rw [Bool.eq_iff_iff]
  exact ⟨sameKey_symm, sameKey_symm⟩

theorem sameKey_trans {u v w : Value} (h : u.sameKey v = true) (h' : v.sameKey w = true) :
    u.sameKey w = true := by
  rw [sameKey_iff] at h h' ⊢
  rcases h with ⟨k, hu, hv⟩ | ⟨i, s, r, rfl, rfl⟩
  · rcases h' with ⟨k', hv', hw⟩ | ⟨i, s, r, rfl, rfl⟩
    · exact .inl ⟨k, hu, hw.trans (hv'.symm.trans hv)⟩
    · cases hv
  · rcases h' with ⟨k', hv', -⟩ | ⟨i', s', r', hv', rfl⟩
    · cases hv'
    · cases hv'
      exact .inr ⟨i, s, r', rfl, rfl⟩

theorem sameKey_congr {v w : Value} (h : v.sameKey w = true) (j : Value) :
    v.sameKey j = w.sameKey j := by
  rw [Bool.eq_iff_iff]
  exact ⟨sameKey_trans (sameKey_symm h), sameKey_trans h⟩

/-- A key is the same key as it is stored. -/
theorem sameKey_stored {v : Value} (h : v ≠ .none) : v.sameKey v.stored = true := by
  cases v with
  | none => exact absurd rfl h
  | float x => exact (Double.canonical_eq_iff x x.canonical).mp x.canonical_canonical.symm
  | _ => exact beq_self_eq_true _

theorem stored_ne {v w : Value} (hv : v ≠ .none) (hw : w ≠ .none) (h : v.sameKey w = false) :
    v.stored ≠ w.stored := by
  intro hstored
  have same := sameKey_trans (sameKey_stored hv) (hstored ▸ sameKey_symm (sameKey_stored hw))
  rw [same] at h
  cases h

/-- An identity belongs to one table. -/
def Consistent (v w : Value) : Prop := ∀ i s u, v = .table i s → w = .table i u → s = u

end Value

namespace Table

theorem set_of_sameKey (t : Table Value) {j k : Value} (same : j.sameKey k = true)
    (consistent : j.Consistent k) (v : Value) : t.set j v = t.set k v := by
  rcases Value.sameKey_iff.mp same with ⟨key, hj, hk⟩ | ⟨i, s, u, rfl, rfl⟩
  · rw [set_of_toKey? _ hj, set_of_toKey? _ hk]
  · rw [consistent i s u rfl rfl]

/-- Two keys that a table holds neither of, both for the end of one place. -/
structure BothNew (t : Table Value) (j k : Value) (p : Place) : Prop where
  unordered : p ≠ .ordered .integer
  place : j.place? = some p ∧ k.place? = some p
  absent : t.get? j = none ∧ t.get? k = none

theorem BothNew.symm {t : Table Value} {j k : Value} {p : Place} (h : t.BothNew j k p) :
    t.BothNew k j p :=
  ⟨h.unordered, h.place.symm, h.absent.symm⟩

namespace WellFormed

variable {t : Table Value} (wf : t.WellFormed) {j k : Value}
include wf

/-- Under one key the second write makes the first one undone. -/
theorem set_set (same : j.sameKey k = true) (v w : Value) :
    (t.set j v).set k w = t.set j w := by
  have wf' := wf.set j v
  apply (wf'.set k w).ext_lookups (wf.set j w)
  · intro p hp
    have hadded : (t.set j v).added k p = [] := by simp [added, wf.get?_set, same]
    rw [wf'.keysIn_set hp, wf.keysIn_set hp, wf.keysIn_set hp, hadded, List.append_nil]
  · intro i
    rw [wf'.get?_set, wf.get?_set, wf.get?_set, Value.sameKey_congr same]
    split <;> rfl

variable (different : j.sameKey k = false)
include different

/-- A lookup sees both writes. -/
theorem get?_set_comm (v w i : Value) :
    ((t.set j v).set k w).get? i = ((t.set k w).set j v).get? i := by
  rw [(wf.set j v).get?_set, (wf.set k w).get?_set, wf.get?_set, wf.get?_set]
  by_cases hj : j.sameKey i = true
  · have hk : k.sameKey i = false := by
      rw [← Bool.not_eq_true]
      intro hk
      rw [Value.sameKey_trans hj (Value.sameKey_symm hk)] at different
      cases different
    simp [hj, hk]
  · simp [hj]

theorem keysIn_set_set {p : Place} (hp : p ≠ .ordered .integer) (v w : Value) :
    ((t.set j v).set k w).keysIn p = t.keysIn p ++ t.added j p ++ t.added k p := by
  have hadded : (t.set j v).added k p = t.added k p := by
    simp [added, wf.get?_set, different]
  rw [(wf.set j v).keysIn_set hp, wf.keysIn_set hp, hadded]

theorem set_comm (v w : Value) (h : ¬∃ p, t.BothNew j k p) :
    (t.set j v).set k w = (t.set k w).set j v := by
  have different' : k.sameKey j = false := by rwa [Value.sameKey_comm]
  apply ((wf.set j v).set k w).ext_lookups ((wf.set k w).set j v)
  · intro p hp
    rw [wf.keysIn_set_set different hp, wf.keysIn_set_set different' hp]
    by_cases hj : j.place? = some p ∧ t.get? j = none
    · have hk : ¬(k.place? = some p ∧ t.get? k = none) := fun hk =>
        h ⟨p, hp, ⟨hj.1, hk.1⟩, ⟨hj.2, hk.2⟩⟩
      simp [added, hk]
    · simp [added, hj]
  · exact wf.get?_set_comm different v w

/-- Two new entries stand at the end in the order of writing. -/
theorem entriesIn_set_set {p : Place} (h : t.BothNew j k p) (v w : Value) :
    ((t.set j v).set k w).entriesIn p = t.entriesIn p ++ [(j.stored, v), (k.stored, w)] := by
  have habsent : (t.set j v).get? k = none := by simp [wf.get?_set, different, h.absent.2]
  rw [(wf.set j v).entriesIn_set_of_new h.unordered h.place.2 habsent,
    wf.entriesIn_set_of_new h.unordered h.place.1 h.absent.1, List.append_assoc]
  rfl

/-- The two orders give the same table unless both keys go to one end. -/
theorem set_comm_iff (v w : Value) :
    (t.set j v).set k w = (t.set k w).set j v ↔ ¬∃ p, t.BothNew j k p := by
  refine ⟨?_, wf.set_comm different v w⟩
  rintro hcomm ⟨p, h⟩
  have different' : k.sameKey j = false := by rwa [Value.sameKey_comm]
  have hentries := wf.entriesIn_set_set different h v w
  rw [hcomm, wf.entriesIn_set_set different' h.symm] at hentries
  have hstored : k.stored = j.stored := by
    have hlast := List.append_cancel_left hentries
    simp only [List.cons.injEq, Prod.mk.injEq] at hlast
    exact hlast.1.1
  have hj : j ≠ .none := by
    rintro rfl
    cases h.place.1
  have hk : k ≠ .none := by
    rintro rfl
    cases h.place.2
  exact Value.stored_ne hk hj different' hstored

end WellFormed

/-- What two writes make of a table, in one order and in the other. Under one key the later write
undoes the earlier. Under two keys every lookup finds the same, and the tables are the same but for
two new keys with an order of writing in one place: there the last two entries change places, and
nothing else differs. -/
theorem set_set_orders {t : Table Value} (reachable : t.Reachable) (j k v w : Value) :
    let first := (t.set j v).set k w
    let second := (t.set k w).set j v
    (j.sameKey k = true → first = t.set j w ∧ (j.Consistent k → first = t.set k w)) ∧
    (j.sameKey k = false →
      (first = second ↔ ¬∃ p, t.BothNew j k p) ∧
      (∀ i, first.get? i = second.get? i) ∧
      (∀ key, first.getKey? key = second.getKey? key ∧
        first.containsKey key = second.containsKey key) ∧
      ∀ p, t.BothNew j k p →
        first.entriesIn p = t.entriesIn p ++ [(j.stored, v), (k.stored, w)] ∧
        second.entriesIn p = t.entriesIn p ++ [(k.stored, w), (j.stored, v)] ∧
        ∀ q, q ≠ p → first.entriesIn q = t.entriesIn q ∧ second.entriesIn q = t.entriesIn q) := by
  intro first second
  have wf := reachable.wellFormed
  constructor
  · intro same
    refine ⟨wf.set_set same v w, fun consistent => ?_⟩
    rw [← set_of_sameKey t same consistent]
    exact wf.set_set same v w
  · intro different
    have different' : k.sameKey j = false := by rwa [Value.sameKey_comm]
    have hget := wf.get?_set_comm different v w
    have hgetKey : ∀ key, first.getKey? key = second.getKey? key := by
      intro key
      rw [← get?_toValue, ← get?_toValue]
      exact hget key.toValue
    refine ⟨wf.set_comm_iff different v w, hget, fun key => ⟨hgetKey key, ?_⟩, ?_⟩
    · have hfirst := (wf.set j v).set k w
      have hsecond := (wf.set k w).set j v
      rw [Bool.eq_iff_iff, hfirst.containsKey_iff, hsecond.containsKey_iff,
        ← hfirst.getKey?_isSome_iff, ← hsecond.getKey?_isSome_iff]
      exact iff_of_eq (congrArg (·.isSome = true) (hgetKey key))
    · intro p h
      refine ⟨wf.entriesIn_set_set different h v w, wf.entriesIn_set_set different' h.symm w v, ?_⟩
      intro q hq
      have hj : j.place? ≠ some q := by
        rw [h.place.1]
        simpa using hq.symm
      have hk : k.place? ≠ some q := by
        rw [h.place.2]
        simpa using hq.symm
      constructor
      · exact (entriesIn_set_of_ne _ hk w).trans (entriesIn_set_of_ne _ hj v)
      · exact (entriesIn_set_of_ne _ hj v).trans (entriesIn_set_of_ne _ hk w)

/-- The two zeros, two whole numbers and two new texts. -/
theorem set_set_orders_at_end :
    let t := ofTexts [("a", .integer 1)]
    (t.set (.float ⟨0x8000000000000000⟩) .none).set (.float .zero) (.integer 2) =
      t.set (.float .zero) (.integer 2) ∧
    (t.set (.integer 9) .none).set (.integer (-4)) .none =
      (t.set (.integer (-4)) .none).set (.integer 9) .none ∧
    ((t.set (.text "c") .none).set (.text "b") (.integer 2)).entriesIn (.ordered .text) =
      [(.text "a", .integer 1), (.text "c", .none), (.text "b", .integer 2)] ∧
    ((t.set (.text "b") (.integer 2)).set (.text "c") .none).entriesIn (.ordered .text) =
      [(.text "a", .integer 1), (.text "b", .integer 2), (.text "c", .none)] := by
  intro t
  have ht : t.Reachable := .ofTexts (List.forall_mem_singleton.mpr (.integer rfl))
  have hentries : t.textEntries = [("a", .integer 1)] :=
    textEntries_ofTexts (List.nodup_singleton _)
  have hzeros := (set_set_orders ht (.float ⟨0x8000000000000000⟩) (.float .zero) .none
    (.integer 2)).1 (by rw [Value.sameKey]; decide)
  have hnumbers := (set_set_orders ht (.integer 9) (.integer (-4)) .none .none).2 rfl
  have htexts := (set_set_orders ht (.text "c") (.text "b") .none (.integer 2)).2 (by decide)
  have habsent : ∀ s, s ≠ "a" → t.get? (.text s) = none := by
    intro s hs
    have hlookup : t.textEntries.lookup s = none := by
      apply lookup_eq_none_of_not_mem
      simpa [hentries] using hs
    exact (ht.wellFormed.texts.get?_eq_lookup s).trans hlookup
  have hnew : t.BothNew (.text "c") (.text "b") (.ordered .text) :=
    ⟨by decide, ⟨rfl, rfl⟩, ⟨habsent _ (by decide), habsent _ (by decide)⟩⟩
  have hplace : t.entriesIn (.ordered .text) = [(.text "a", .integer 1)] := by
    change (t.textEntries.map fun e => (Key.text e.1, e.2)).map (fun e => (e.1.toValue, e.2)) = _
    rw [hentries]
    rfl
  refine ⟨hzeros.2 ?_, hnumbers.1.mpr ?_, ?_, ?_⟩
  · intro i s u h
    cases h
  · rintro ⟨p, h⟩
    cases h.place.1
    exact h.unordered rfl
  · rw [(htexts.2.2.2 _ hnew).1, hplace]
    rfl
  · rw [(htexts.2.2.2 _ hnew).2.1, hplace]
    rfl

end Table

end ScriptTable
