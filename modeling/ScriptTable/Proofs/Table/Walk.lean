import ScriptTable.Proofs.Table.WriteOrder

/-!
Walks over a table that is written to on the way. A write never changes the order of the keys that
are there, so a key to go on from keeps all passed keys before it and all keys to come after it. No
bound on the writes between two steps is assumed; only a walk that is written to forever need not end.
-/

namespace ScriptTable

/-- How a walk finds its keys: the first one, and the one after a given one. -/
structure Protocol (C : Type) where
  first : Table Value → Option C
  next : Table Value → C → Except BridgeError (Option C)

/-- A walk between two steps: the table as it stands, the key to go on from, and the keys gone from,
oldest first. -/
structure Stage (C : Type) where
  table : Table Value
  cursor : Option C
  passed : List C

namespace Protocol

def ofKeys : Protocol Key := ⟨Table.firstKey?, Table.nextKey⟩

def ofValues : Protocol Value := ⟨Table.initialKey?, Table.successorKey⟩

variable {C : Type} (p : Protocol C)

def start (t : Table Value) : Stage C := ⟨t, p.first t, []⟩

/-- Some writes, then one step. A walk that has ended stays as it is. -/
def step (s : Stage C) (ws : List Write) : Except BridgeError (Stage C) :=
  match s.cursor with
  | none => .ok s
  | some c => (p.next (s.table.after ws) c).map fun c' => ⟨s.table.after ws, c', s.passed ++ [c]⟩

/-- One step for each list of writes. -/
def run (s : Stage C) : List (List Write) → Except BridgeError (Stage C)
  | [] => .ok s
  | ws :: rounds => (p.step s ws).bind fun s' => run s' rounds

@[simp] theorem run_nil (s : Stage C) : p.run s [] = .ok s := rfl

theorem run_cons {s s' : Stage C} {ws : List Write} (h : p.step s ws = .ok s')
    (rounds : List (List Write)) : p.run s (ws :: rounds) = p.run s' rounds := by
  rw [run, h]
  rfl

theorem step_ended {s : Stage C} (h : s.cursor = none) (ws : List Write) : p.step s ws = .ok s := by
  rw [step, h]

theorem run_ended {s : Stage C} (h : s.cursor = none) (rounds : List (List Write)) :
    p.run s rounds = .ok s := by
  induction rounds with
  | nil => rfl
  | cons ws rounds ih => rw [p.run_cons (p.step_ended h ws), ih]

end Protocol

def Stage.map {C D : Type} (f : C → D) (s : Stage C) : Stage D :=
  ⟨s.table, s.cursor.map f, s.passed.map f⟩

/-- A list that grows around an element grows before it and after it. -/
theorem split_of_sublist {α : Type} {pre post l : List α} {a : α}
    (h : (pre ++ a :: post).Sublist l) :
    ∃ pre' post', l = pre' ++ a :: post' ∧ pre.Sublist pre' ∧ post.Sublist post' := by
  obtain ⟨front, back, rfl, hfront, hback⟩ := List.append_sublist_iff.mp h
  obtain ⟨mid, rest, rfl, hmid, hrest⟩ := List.cons_sublist_iff.mp hback
  obtain ⟨mid₁, mid₂, rfl⟩ := List.append_of_mem hmid
  refine ⟨front ++ mid₁, mid₂ ++ rest, by simp, ?_, ?_⟩
  · exact hfront.trans (List.sublist_append_left _ _)
  · exact hrest.trans (List.sublist_append_right _ _)

/-- Of the elements that were there before the list grew, only those before `a` are before it now. -/
theorem mem_left_of_split {α : Type} {pre post pre' post' : List α} {a b : α}
    (nodup : (pre' ++ a :: post').Nodup) (hpost : post.Sublist post') (hb : b ∈ pre ++ a :: post)
    (hpre : b ∈ pre') : b ∈ pre := by
  rw [List.nodup_append] at nodup
  rw [List.mem_append, List.mem_cons] at hb
  rcases hb with hb | rfl | hb
  · exact hb
  · exact absurd rfl (nodup.2.2 b hpre b List.mem_cons_self)
  · exact absurd rfl (nodup.2.2 b hpre b (List.mem_cons_of_mem _ (hpost.subset hb)))

theorem eq_of_sublist_of_subset {α : Type} {l l' : List α} (h : l.Sublist l') (nodup : l'.Nodup)
    (hsub : l' ⊆ l) : l = l' :=
  h.eq_of_length_le (List.subperm_of_subset nodup hsub).length_le

namespace Table.WellFormed

variable {t : Table Value} (wf : t.WellFormed)
include wf

theorem keys_sublist_set (k v : Value) : t.keys.Sublist (t.set k v).keys := by
  cases h : k.toKey? with
  | none => rw [t.keys_set_of_toKey?_eq_none v h]
  | some key =>
    rw [t.set_of_toKey? h]
    exact wf.keys_sublist_setKey key v

theorem mem_keys_set {k : Value} {v : Value} {j : Key} (h : j ∈ (t.set k v).keys) :
    k.toKey? = some j ∨ j ∈ t.keys := by
  cases hk : k.toKey? with
  | none =>
    rw [t.keys_set_of_toKey?_eq_none v hk] at h
    exact .inr h
  | some key =>
    rw [t.set_of_toKey? hk, wf.mem_keys_setKey] at h
    rcases h with rfl | h
    · exact .inl rfl
    · exact .inr h

/-- Writes add keys to the order and change nothing in it. -/
theorem keys_sublist_after (ws : List Write) : t.keys.Sublist (t.after ws).keys := by
  induction ws generalizing t with
  | nil => exact List.Sublist.refl _
  | cons w ws ih =>
    rw [after_cons, w.apply_eq_set]
    exact (wf.keys_sublist_set w.target w.value).trans (ih (wf.set w.target w.value))

theorem mem_keys_after {ws : List Write} {j : Key} (h : j ∈ (t.after ws).keys) :
    j ∈ t.keys ∨ ∃ w ∈ ws, w.target.toKey? = some j := by
  induction ws generalizing t with
  | nil => exact .inl h
  | cons w ws ih =>
    rw [after_cons, w.apply_eq_set] at h
    rcases ih (wf.set w.target w.value) h with h | ⟨w', hw', hj⟩
    · rcases wf.mem_keys_set h with h | h
      · exact .inr ⟨w, List.mem_cons_self, h⟩
      · exact .inl h
    · exact .inr ⟨w', List.mem_cons_of_mem _ hw', hj⟩

end Table.WellFormed

namespace Stage

/-- The invariant of a walk that started on `t`. The keys of the table split into those behind the
cursor and those from the cursor on; only keys behind it were passed, and of the keys of `t` all of
those. -/
structure Follows (t : Table Value) (s : Stage Key) : Prop where
  wf : s.table.WellFormed
  grown : t.keys.Sublist s.table.keys
  split : ∃ behind ahead, s.table.keys = behind ++ ahead ∧ s.cursor = ahead.head? ∧
    s.passed.Sublist behind ∧ ∀ k ∈ t.keys, k ∈ behind → k ∈ s.passed

theorem follows_start {t : Table Value} (wf : t.WellFormed) :
    (Protocol.ofKeys.start t).Follows t where
  wf := wf
  grown := List.Sublist.refl _
  split := ⟨[], t.keys, rfl, t.firstKey?_eq, List.Sublist.refl _, fun k _ hk => by cases hk⟩

namespace Follows

variable {t : Table Value} {s : Stage Key} (h : s.Follows t)
include h

/-- The step: after any writes the successor is found, and the cursor moves past one key. -/
theorem step {c : Key} (hc : s.cursor = some c) (ws : List Write) :
    ∃ next, Protocol.ofKeys.step s ws = .ok ⟨s.table.after ws, next, s.passed ++ [c]⟩ ∧
      Follows t ⟨s.table.after ws, next, s.passed ++ [c]⟩ := by
  obtain ⟨behind, ahead, hkeys, hcursor, hpassed, hall⟩ := h.split
  obtain ⟨ahead, rfl⟩ := List.head?_eq_some_iff.mp (hcursor.symm.trans hc)
  have wf' : (s.table.after ws).WellFormed := h.wf.after ws
  have hsub : (behind ++ c :: ahead).Sublist (s.table.after ws).keys :=
    hkeys ▸ h.wf.keys_sublist_after ws
  obtain ⟨behind', ahead', hnow, hbehind, hahead⟩ := split_of_sublist hsub
  have hstep : Protocol.ofKeys.step s ws =
      .ok ⟨s.table.after ws, ahead'.head?, s.passed ++ [c]⟩ := by
    rw [Protocol.step, hc]
    exact congrArg (Except.map _) (wf'.nextKey_of_split hnow)
  refine ⟨_, hstep, wf', h.grown.trans (h.wf.keys_sublist_after ws),
    behind' ++ [c], ahead', by simp [hnow], rfl, ?_, ?_⟩
  · exact (hpassed.trans hbehind).append (List.Sublist.refl _)
  · intro k hk hmem
    rcases List.mem_append.mp hmem with hmem | hmem
    · have hold : k ∈ behind ++ c :: ahead := hkeys ▸ h.grown.subset hk
      have hleft := mem_left_of_split (hnow ▸ wf'.nodup_keys) hahead hold hmem
      exact List.mem_append_left _ (hall k hk hleft)
    · exact List.mem_append_right _ hmem

/-- The run: no step fails, and while the walk goes on every round passes one key. -/
theorem run (rounds : List (List Write)) :
    ∃ s', Protocol.ofKeys.run s rounds = .ok s' ∧ s'.Follows t ∧
      s'.table.keys.Sublist (s.table.after rounds.flatten).keys ∧
      (s'.cursor = none ∨ s'.passed.length = s.passed.length + rounds.length) := by
  induction rounds generalizing s with
  | nil => exact ⟨s, rfl, h, List.Sublist.refl _, .inr rfl⟩
  | cons ws rounds ih =>
    cases hc : s.cursor with
    | none =>
      exact ⟨s, Protocol.ofKeys.run_ended hc _, h, h.wf.keys_sublist_after _, .inl hc⟩
    | some c =>
      obtain ⟨next, hstep, hfollows⟩ := h.step hc ws
      obtain ⟨s', hrun, hs', hgrown, hcount⟩ := ih hfollows
      refine ⟨s', by rw [Protocol.run_cons _ hstep, hrun], hs', ?_, ?_⟩
      · rw [List.flatten_cons, Table.after_append]
        exact hgrown
      · rcases hcount with hcount | hcount
        · exact .inl hcount
        · right
          simp only [hcount, List.length_append, List.length_cons, List.length_nil]
          omega

/-- A walk passes no key twice, and all keys in the order of the table as it is now. -/
theorem passed_sublist : s.passed.Sublist s.table.keys := by
  obtain ⟨behind, ahead, hkeys, -, hpassed, -⟩ := h.split
  rw [hkeys]
  exact hpassed.trans (List.sublist_append_left _ _)

/-- A walk that has ended has passed every key that was there when it started. -/
theorem mem_passed (hend : s.cursor = none) {k : Key} (hk : k ∈ t.keys) : k ∈ s.passed := by
  obtain ⟨behind, ahead, hkeys, hcursor, -, hall⟩ := h.split
  rw [hend, eq_comm, List.head?_eq_none_iff] at hcursor
  apply hall k hk
  have hmem := h.grown.subset hk
  rwa [hkeys, hcursor, List.append_nil] at hmem

/-- While a walk goes on there is a key that it has not passed. -/
theorem length_passed_lt {c : Key} (hc : s.cursor = some c) :
    s.passed.length < s.table.keys.length := by
  obtain ⟨behind, ahead, hkeys, hcursor, hpassed, -⟩ := h.split
  obtain ⟨ahead, rfl⟩ := List.head?_eq_some_iff.mp (hcursor.symm.trans hc)
  have hle := hpassed.length_le
  rw [hkeys, List.length_append, List.length_cons]
  omega

end Follows

end Stage

/-- The protocol over values is the one over keys, seen through the values of the keys. -/
theorem Protocol.step_map_toValue (s : Stage Key) (ws : List Write) :
    ofValues.step (s.map Key.toValue) ws = (ofKeys.step s ws).map (Stage.map Key.toValue) := by
  cases hc : s.cursor with
  | none =>
    rw [ofKeys.step_ended hc, ofValues.step_ended (by rw [Stage.map, hc]; rfl)]
    rfl
  | some c =>
    have hnext : ofValues.next (s.table.after ws) c.toValue =
        (ofKeys.next (s.table.after ws) c).map (·.map Key.toValue) :=
      Table.successorKey_toValue _ c
    simp only [step, Stage.map, hc, Option.map_some, hnext]
    cases ofKeys.next (s.table.after ws) c <;> simp [Except.map, Stage.map]

theorem Protocol.run_map_toValue (s : Stage Key) (rounds : List (List Write)) :
    ofValues.run (s.map Key.toValue) rounds = (ofKeys.run s rounds).map (Stage.map Key.toValue) := by
  induction rounds generalizing s with
  | nil => rfl
  | cons ws rounds ih =>
    rw [run, run, step_map_toValue]
    cases ofKeys.step s ws with
    | error e => rfl
    | ok s' => exact ih s'

/-- A walk survives writes made during it. Whatever is written between its steps, no step fails, and
once the writes stop the walk ends within as many steps as there are keys; it has passed no key
twice, every key that was there when it started, and all in the order of the final table. If no
write brings a new key it has passed exactly the keys of the starting table. The walk over values
does the same. -/
theorem walk_survives_writes (history : List Write) (rounds : List (List Write)) (more : Nat) :
    let t := Table.ofWrites history
    let quiet := List.replicate ((t.after rounds.flatten).size + more) []
    ∃ s, Protocol.ofKeys.run (Protocol.ofKeys.start t) (rounds ++ quiet) = .ok s ∧
      Protocol.ofValues.run (Protocol.ofValues.start t) (rounds ++ quiet) =
        .ok (s.map Key.toValue) ∧
      s.cursor = none ∧ s.passed.Nodup ∧
      s.passed.Sublist (s.table.pairs.map Prod.fst) ∧
      (∀ k ∈ t.pairs.map Prod.fst, k ∈ s.passed) ∧
      ((∀ ws ∈ rounds, ∀ w ∈ ws, ∀ k, w.target.toKey? = some k → k ∈ t.pairs.map Prod.fst) →
        s.passed = t.pairs.map Prod.fst) := by
  intro t quiet
  have wf : t.WellFormed := Table.wellFormed_ofWrites history
  obtain ⟨s, hrun, hs, hgrown, hcount⟩ := (Stage.follows_start wf).run (rounds ++ quiet)
  have hwrites : (rounds ++ quiet).flatten = rounds.flatten := by
    simp [quiet]
  rw [hwrites] at hgrown
  have hend : s.cursor = none := by
    cases hc : s.cursor with
    | none => rfl
    | some c =>
      have hsize : s.table.keys.length ≤ (t.after rounds.flatten).size := by
        rw [Table.size_eq]
        exact hgrown.length_le
      have hlt := hs.length_passed_lt hc
      have hcount : s.passed.length = rounds.length + ((t.after rounds.flatten).size + more) := by
        simpa [hc, quiet, Protocol.start] using hcount
      omega
  refine ⟨s, hrun, ?_, hend, hs.wf.nodup_keys.sublist hs.passed_sublist, ?_, ?_, ?_⟩
  · have hvalues := Protocol.run_map_toValue (Protocol.ofKeys.start t) (rounds ++ quiet)
    rw [hrun] at hvalues
    exact hvalues
  · rw [hs.wf.pairs_keys]
    exact hs.passed_sublist
  · rw [wf.pairs_keys]
    exact fun k => hs.mem_passed hend
  · rw [wf.pairs_keys]
    intro hold
    have hnew : s.table.keys ⊆ t.keys := by
      intro k hk
      rcases wf.mem_keys_after (hgrown.subset hk) with hk | ⟨w, hw, hk⟩
      · exact hk
      · obtain ⟨ws, hws, hw⟩ := List.mem_flatten.mp hw
        exact hold ws hws w hw k hk
    have hkeys : t.keys = s.table.keys := eq_of_sublist_of_subset hs.grown hs.wf.nodup_keys hnew
    have hpassed : s.passed = s.table.keys :=
      eq_of_sublist_of_subset hs.passed_sublist hs.wf.nodup_keys
        (fun k hk => hs.mem_passed hend (hkeys ▸ hk))
    rw [hpassed, hkeys]

/-- Replacing values and writing under tables and `none` does not disturb a walk. -/
theorem walk_over_replacements :
    let t := Table.ofWrites [.set (.text "b") .none, .set (.integer 1) .none]
    let rounds : List (List Write) :=
      [[.set (.text "b") (.integer 5), .set (.table 0 .empty) .none], [.set .none .none]]
    ∃ s, Protocol.ofKeys.run (Protocol.ofKeys.start t)
        (rounds ++ List.replicate ((t.after rounds.flatten).size + 0) []) = .ok s ∧
      s.passed = [.integer 1, .text "b"] := by
  intro t rounds
  have hkeys : t.pairs.map Prod.fst = [.integer 1, .text "b"] := by
    rw [(Table.wellFormed_ofWrites _).pairs_keys, Table.keys_ofWrites]
    simp [traversalOrder, keysWritten, Write.target, Value.toKey?, Key.integer?, Key.kind,
      List.filterMap_cons, List.eraseDups_cons]
  obtain ⟨s, hrun, -, -, -, -, -, hsame⟩ := walk_survives_writes
    [.set (.text "b") .none, .set (.integer 1) .none] rounds 0
  refine ⟨s, hrun, (hsame ?_).trans hkeys⟩
  rw [hkeys]
  simp [rounds, Write.target, Value.toKey?]

end ScriptTable
