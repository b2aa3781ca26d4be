import ScriptTable.Proofs.Table.Texts
import ScriptTable.Proofs.Table.Traversal

/-!
The text of a table. It lists the entries that a traversal meets, in that order, each table inside
written likewise, and identities do not show in it.
-/

namespace ScriptTable

variable {V W : Type}

namespace Table

theorem renderEntries_eq (ks : List Key) (vs : List Value) :
    Value.renderEntries ks vs = (ks.zip vs).map fun e => e.1.render ++ ": " ++ e.2.render := by
  induction ks generalizing vs with
  | nil => simp [Value.renderEntries]
  | cons k ks ih =>
    cases vs with
    | nil => simp [Value.renderEntries]
    | cons v vs => simp [Value.renderEntries, ih]

theorem render_eq (t : Table Value) :
    t.render = joinEntries (t.entries.map fun e => e.1.render ++ ": " ++ e.2.render) := by
  obtain ⟨⟨intKeys, ⟨ints⟩⟩, ⟨floatKeys, floatIndex, ⟨floats⟩⟩, ⟨textKeys, textIndex, ⟨texts⟩⟩,
    ⟨boolKeys, boolIndex, ⟨bools⟩⟩, fallback⟩ := t
  simp [render, renderEntries_eq, entries, Sorted.entries, Ordered.entries, List.zip_map_left,
    Function.comp_def]

theorem entries_map (f : V → W) (t : Table V) :
    (t.map f).entries = t.entries.map fun e => (e.1, f e.2) := by
  simp [entries, map, Sorted.map, Ordered.map, Sorted.entries, Ordered.entries, List.zip_map_right,
    Function.comp_def]

theorem mem_contents_of_entries {t : Table V} {e : Key × V} (h : e ∈ t.entries) :
    e.2 ∈ t.contents := by
  rw [entries, List.mem_append, List.mem_append, List.mem_append] at h
  rcases h with ((h | h) | h) | h <;> obtain ⟨⟨k, v⟩, hmem, rfl⟩ := List.mem_map.mp h <;>
    simp [contents, (List.of_mem_zip hmem).2]

theorem render_forget (t : Table Value) : t.forget.render = t.render := by
  induction t using Table.induction with
  | step t ih =>
    rw [render_eq, render_eq, forget_eq_map, entries_map, List.map_map]
    congr 1
    apply List.map_congr_left
    rintro ⟨k, v⟩ h
    have hv := mem_contents_of_entries h
    cases v with
    | table i u => exact congrArg (k.render ++ ": " ++ ·) (ih i u hv)
    | _ => rfl

theorem keys_forget (t : Table Value) : t.forget.keys = t.keys := by
  rw [forget_eq_map]
  rfl

theorem asList_forget (t : Table Value) : t.forget.asList = t.asList.map Value.forget := by
  rw [forget_eq_map]
  exact Array.toList_map

theorem entries_ofTexts {es : List (String × V)} (nodup : (es.map Prod.fst).Nodup) :
    (ofTexts es).entries = es.map fun e => (.text e.1, e.2) := by
  have htexts := Ordered.entries_ofEntries nodup
  simp [entries, ofTexts, empty, htexts]

theorem keys_ofTexts {es : List (String × V)} (nodup : (es.map Prod.fst).Nodup) :
    (ofTexts es).keys = es.map fun e => .text e.1 := by
  have htexts := (Ordered.toList_ofEntries nodup).1
  simp [keys, Kind.order, keysOf, ofTexts, empty, htexts]

theorem entries_positional (vs : List V) :
    (positional vs).entries =
      ((Sorted.keysFrom 1 vs.length).zip vs).map fun e => (.integer e.1, e.2) := by
  simp [entries, positional, empty, Sorted.entries]

theorem keys_positional (vs : List V) :
    (positional vs).keys = (Sorted.keysFrom 1 vs.length).map .integer := by
  simp [keys, Kind.order, keysOf, positional, empty]

end Table

theorem Value.render_forget (v : Value) : v.forget.render = v.render := by
  cases v with
  | table i t => exact t.render_forget
  | _ => rfl

end ScriptTable
