import ScriptTable.Proofs.Table.History

/-!
Traversal of a well-formed table. The successor of a key is the next key of the concatenated
partitions, also where one partition ends and some of the following are empty; so a walk is a list
walk over the keys, and the iterator gives the entries.
-/

namespace ScriptTable

/-- A split of an image at the image of an element is the image of a split. -/
theorem split_of_map_split {α β : Type} {f : α → β} (hf : ∀ a b, f a = f b → a = b) {l : List α}
    {a : α} {pre post : List β} (h : l.map f = pre ++ f a :: post) :
    ∃ pre' post', l = pre' ++ a :: post' ∧ post = post'.map f := by
  obtain ⟨pre', rest, rfl, -, hrest⟩ := List.map_eq_append_iff.mp h
  obtain ⟨b, post', rfl, hb, rfl⟩ := List.map_eq_cons_iff.mp hrest
  rw [hf b a hb]
  exact ⟨pre', post', rfl, rfl⟩

namespace Table

/-- The key at which a walk stands after `n` steps, if it has not ended. -/
def cursorAfter {V : Type} (t : Table V) : Nat → Except BridgeError (Option Key)
  | 0 => .ok t.firstKey?
  | n + 1 =>
    match t.cursorAfter n with
    | .error e => .error e
    | .ok none => .ok none
    | .ok (some k) => t.nextKey k

namespace WellFormed

variable {t : Table Value} (wf : t.WellFormed)
include wf

/-- The successor in a key's own partition. -/
theorem successor_of_split {k : Key} {pre post : List Key}
    (h : t.keysOf k.kind = pre ++ k :: post) : t.successor k = .ofRest post := by
  cases k with
  | integer n =>
    obtain ⟨pre, post, hkeys, rfl⟩ := split_of_map_split (fun a b h => Key.integer.inj h) h
    rw [successor, wf.integers.successor_of_split hkeys, Successor.map_ofRest]
  | float x =>
    obtain ⟨pre, post, hkeys, rfl⟩ := split_of_map_split (fun a b h => Key.float.inj h) h
    rw [successor, wf.floats.successor_of_split hkeys, Successor.map_ofRest]
  | text s =>
    obtain ⟨pre, post, hkeys, rfl⟩ := split_of_map_split (fun a b h => Key.text.inj h) h
    rw [successor, wf.texts.successor_of_split hkeys, Successor.map_ofRest]
  | boolean b =>
    obtain ⟨pre, post, hkeys, rfl⟩ := split_of_map_split (fun a b h => Key.boolean.inj h) h
    rw [successor, wf.booleans.successor_of_split hkeys, Successor.map_ofRest]

theorem successor_of_not_mem {k : Key} (h : k ∉ t.keysOf k.kind) : t.successor k = .absent := by
  cases k with
  | integer n =>
    have fresh : n ∉ t.integers.keys.toList := fun hn => h (List.mem_map_of_mem hn)
    rw [successor, wf.integers.successor_of_not_mem fresh, Successor.map_absent]
  | float x =>
    have fresh : x ∉ t.floats.keys.toList := fun hx => h (List.mem_map_of_mem hx)
    rw [successor, wf.floats.successor_of_not_mem fresh, Successor.map_absent]
  | text s =>
    have fresh : s ∉ t.texts.keys.toList := fun hs => h (List.mem_map_of_mem hs)
    rw [successor, wf.texts.successor_of_not_mem fresh, Successor.map_absent]
  | boolean b =>
    have fresh : b ∉ t.booleans.keys.toList := fun hb => h (List.mem_map_of_mem hb)
    rw [successor, wf.booleans.successor_of_not_mem fresh, Successor.map_absent]

/-- The step of a walk, across all partitions. -/
theorem nextKey_of_split {k : Key} {pre post : List Key} (h : t.keys = pre ++ k :: post) :
    t.nextKey k = .ok post.head? := by
  have hmem : k ∈ t.keysOf k.kind := by
    rw [← mem_keys_iff, h]
    simp
  obtain ⟨pre', post', hown⟩ := List.append_of_mem hmem
  obtain ⟨before, -, -, horder⟩ := k.kind.order_eq
  have hkeys : t.keys = (before.flatMap t.keysOf ++ pre') ++
      k :: (post' ++ k.kind.following.flatMap t.keysOf) := by
    rw [keys, horder, List.flatMap_append, List.flatMap_cons, hown]
    simp
  have hnodup := wf.nodup_keys
  rw [hkeys, List.nodup_middle, List.nodup_cons, List.mem_append, not_or] at hnodup
  obtain ⟨-, -, rfl⟩ :=
    (List.append_cons_inj_of_notMem hnodup.1.1 hnodup.1.2).mp (hkeys.symm.trans h)
  rw [nextKey, wf.successor_of_split hown]
  cases post' with
  | nil => rw [Successor.ofRest_nil, firstKeyAmong_eq, List.nil_append]
  | cons k' post' => rw [Successor.ofRest_cons, List.cons_append, List.head?_cons]

theorem nextKey_of_not_mem {k : Key} (h : k ∉ t.keys) :
    t.nextKey k = .error (.unknownKey k.render) := by
  rw [mem_keys_iff] at h
  rw [nextKey, wf.successor_of_not_mem h]

theorem nextKey_of_getElem? {k : Key} {i : Nat} (h : t.keys[i]? = some k) :
    t.nextKey k = .ok t.keys[i + 1]? := by
  obtain ⟨hi, rfl⟩ := List.getElem?_eq_some_iff.mp h
  have hsplit : t.keys = t.keys.take i ++ t.keys[i] :: t.keys.drop (i + 1) := by
    rw [List.getElem_cons_drop, List.take_append_drop]
  rw [wf.nextKey_of_split hsplit, List.head?_drop]

/-- The run: a walk meets the keys in order, one with each step, and then ends. -/
theorem cursorAfter_eq (n : Nat) : t.cursorAfter n = .ok t.keys[n]? := by
  induction n with
  | zero => rw [cursorAfter, firstKey?_eq, List.head?_eq_getElem?]
  | succ n ih =>
    rw [cursorAfter, ih]
    cases h : t.keys[n]? with
    | none =>
      rw [List.getElem?_eq_none_iff] at h
      simp only [Except.ok.injEq]
      exact (List.getElem?_eq_none_iff.mpr (by omega)).symm
    | some k => exact wf.nextKey_of_getElem? h

theorem pairsFrom_of_split {pre rest : List (Key × Value)} (h : t.entries = pre ++ rest)
    (fuel : Nat) : t.pairsFrom fuel (rest.head?.map Prod.fst) = rest.take fuel := by
  induction fuel generalizing pre rest with
  | zero => rfl
  | succ fuel ih =>
    cases rest with
    | nil => rfl
    | cons e rest =>
      have hget : t.getKey? e.1 = some e.2 := by
        rw [wf.getKey?_eq_lookup]
        apply lookup_of_mem (wf.entries_keys ▸ wf.nodup_keys)
        rw [h]
        simp
      have hnext : t.nextKey e.1 = .ok (rest.head?.map Prod.fst) := by
        have hkeys : t.keys = pre.map Prod.fst ++ e.1 :: rest.map Prod.fst := by
          rw [← wf.entries_keys, h]
          simp
        rw [wf.nextKey_of_split hkeys, List.head?_map]
      have hsplit : t.entries = (pre ++ [e]) ++ rest := by simp [h]
      have hrest := ih hsplit
      simp only [List.head?_cons, Option.map_some, pairsFrom, hget, hnext, Except.toOption,
        Option.join_some, hrest, List.take_succ_cons]

/-- Walking finds the entries of the four ordered partitions, and no more of them however long it
goes on. -/
theorem pairsFrom_firstKey? (n : Nat) : t.pairsFrom n t.firstKey? = t.entries.take n := by
  have hsplit : t.entries = [] ++ t.entries := rfl
  rw [firstKey?_eq, ← wf.entries_keys, List.head?_map, wf.pairsFrom_of_split hsplit]

theorem pairs_eq_entries : t.pairs = t.entries := by
  have hsize : t.size = t.entries.length := by
    rw [size_eq, ← wf.entries_keys, List.length_map]
  rw [pairs, wf.pairsFrom_firstKey?, hsize, List.take_length]

theorem pairs_keys : t.pairs.map Prod.fst = t.keys := by
  rw [wf.pairs_eq_entries, wf.entries_keys]

theorem walkFrom_of_split {pre rest : List Key} (h : t.keys = pre ++ rest) {fuel : Nat}
    (enough : rest.length ≤ fuel) :
    t.walkFrom fuel (rest.head?.map Key.toValue) = ⟨rest.map Key.toValue, none, none⟩ := by
  induction rest generalizing pre fuel with
  | nil => cases fuel <;> rfl
  | cons k rest ih =>
    obtain ⟨fuel, rfl⟩ : ∃ n, fuel = n + 1 := ⟨fuel - 1, by simp at enough; omega⟩
    have hnext : t.successorKey k.toValue = .ok (rest.head?.map Key.toValue) := by
      rw [successorKey_toValue, wf.nextKey_of_split h]
      rfl
    have hsplit : t.keys = (pre ++ [k]) ++ rest := by simp [h]
    have hrest := ih hsplit (by simpa using enough)
    simp only [List.head?_cons, Option.map_some, walkFrom, hnext, hrest, List.map_cons]

/-- A walk over values meets the keys in order, no step of it fails, and it ends by itself, with
whatever is left of the fuel. -/
theorem walkFrom_initialKey? {fuel : Nat} (enough : t.size ≤ fuel) :
    t.walkFrom fuel t.initialKey? = ⟨t.keys.map Key.toValue, none, none⟩ := by
  have hsplit : t.keys = [] ++ t.keys := rfl
  rw [size_eq] at enough
  rw [initialKey?, firstKey?_eq, wf.walkFrom_of_split hsplit enough]

theorem walk_eq : t.walk = ⟨t.keys.map Key.toValue, none, none⟩ := wf.walkFrom_initialKey? le_rfl

end WellFormed

end Table

end ScriptTable
