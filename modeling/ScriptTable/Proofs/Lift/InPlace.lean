import ScriptTable.Proofs.Lift.Orderly

/-!
Host entries written into a table that a caller holds. A program works on the table where it stands,
and what it had changed before it failed would stay changed; but both sides of an entry are lifted
before it is written, so a failure leaves the table alone. Entries written one by one make the table
of the map that holds them, which is one level deeper, except for composite keys: a map passes over
them, and here the table that such a key becomes is a key of the fallback partition.
-/

namespace ScriptTable

variable {α β : Type}

/-- A table that a caller holds, with the counter that identities are drawn from. -/
structure Held where
  table : Table Value
  next : Identity

/-- Programs on a held table. The table outlives a failure. -/
abbrev InPlace := ExceptT BridgeError (StateM Held)

namespace InPlace

/-- The answer of a program and the table after it. -/
def exec (p : InPlace α) (s : Held) : Except BridgeError α × Held := (p.run s).run

/-- A conversion draws identities and does not know the table. -/
def convert (m : Lift α) : InPlace α := .mk fun s =>
  match m s.next with
  | .ok (a, next) => (.ok a, { s with next })
  | .error e => (.error e, s)

def write (k v : Value) : InPlace Unit := modify fun s => { s with table := s.table.set k v }

/-- Writes one entry, both sides lifted. -/
def setHost (limit : Nat) (key value : Host) : InPlace Unit := do
  let k ← convert (key.liftValue limit)
  let v ← convert (value.liftValue limit)
  write k v

/-- Writes entries one by one, whatever came of those before, and gives the answer to each. -/
def setHosts (limit : Nat) : List (Host × Host) → Held → List (Except BridgeError Unit) × Held
  | [], s => ([], s)
  | e :: rest, s =>
    let first := (setHost limit e.1 e.2).exec s
    let others := setHosts limit rest first.2
    (first.1 :: others.1, others.2)

theorem exec_bind (p : InPlace α) (f : α → InPlace β) (s : Held) :
    (p >>= f).exec s = match p.exec s with
      | (.ok a, s) => (f a).exec s
      | (.error e, s) => (.error e, s) := by
  change (match p.exec s with
    | (r, s) => ExceptT.bindCont f r s) = _
  rcases p.exec s with ⟨e | a, s'⟩ <;> rfl

theorem exec_convert (m : Lift α) (s : Held) :
    (convert m).exec s = match m s.next with
      | .ok (a, next) => (.ok a, { s with next })
      | .error e => (.error e, s) := rfl

theorem exec_setHost (limit : Nat) (key value : Host) (s : Held) :
    (setHost limit key value).exec s = match key.liftValue limit s.next with
      | .error e => (.error e, s)
      | .ok (k, next) => match value.liftValue limit next with
        | .error e => (.error e, { s with next })
        | .ok (v, next) => (.ok (), ⟨s.table.set k v, next⟩) := by
  rw [setHost, exec_bind, exec_convert]
  rcases key.liftValue limit s.next with e | ⟨k, next⟩
  · rfl
  · dsimp only
    rw [exec_bind, exec_convert]
    dsimp only
    rcases value.liftValue limit next with e | ⟨v, next'⟩ <;> rfl

/-- In place or not, the same answer, and on success the same table. -/
theorem exec_setHost_eq (limit : Nat) (key value : Host) (s : Held) :
    match s.table.setHost limit key value s.next with
    | .ok (t, next) => (setHost limit key value).exec s = (.ok (), ⟨t, next⟩)
    | .error e => ((setHost limit key value).exec s).1 = .error e := by
  rw [exec_setHost, Table.setHost, Lift.bind_apply]
  rcases key.liftValue limit s.next with e | ⟨k, next⟩
  · rfl
  · dsimp only
    rw [Lift.bind_apply]
    rcases value.liftValue limit next with e | ⟨v, next'⟩ <;> rfl

/-- A failure leaves the table as it was, and is that of the key, or else of the value. -/
theorem setHost_failed {limit : Nat} {key value : Host} {s s' : Held} {e : BridgeError}
    (failed : (setHost limit key value).exec s = (.error e, s')) :
    s'.table = s.table ∧ (key.liftValue limit s.next = .error e ∨
      ∃ k next, key.liftValue limit s.next = .ok (k, next) ∧
        value.liftValue limit next = .error e) := by
  rw [exec_setHost] at failed
  cases hkey : key.liftValue limit s.next with
  | error e' =>
    rw [hkey] at failed
    cases failed
    exact ⟨rfl, .inl rfl⟩
  | ok r =>
    obtain ⟨k, next⟩ := r
    rw [hkey] at failed
    dsimp only at failed
    cases hvalue : value.liftValue limit next with
    | error e' =>
      rw [hvalue] at failed
      cases failed
      exact ⟨rfl, .inr ⟨k, next, rfl, hvalue⟩⟩
    | ok r =>
      rw [hvalue] at failed
      cases failed

/-- The step: an entry is written exactly if both its sides are within the limit. -/
theorem setHost_step (limit : Nat) (key value : Host) (s : Held) :
    if key.depth ≤ limit ∧ value.depth ≤ limit then
      ∃ k v next, k.forget = key.image ∧ v.forget = value.image ∧
        (setHost limit key value).exec s = (.ok (), ⟨s.table.set k v, next⟩)
    else ∃ e s', (setHost limit key value).exec s = (.error e, s') := by
  obtain ⟨k, next, hk, hkey⟩ := key.liftValue_eq s.next
  obtain ⟨v, next', hv, hvalue⟩ := value.liftValue_eq next
  rw [exec_setHost, hkey]
  by_cases hkeyDepth : key.depth ≤ limit
  · rw [if_pos hkeyDepth]
    dsimp only
    rw [hvalue]
    by_cases hvalueDepth : value.depth ≤ limit
    · rw [if_pos hvalueDepth, if_pos ⟨hkeyDepth, hvalueDepth⟩]
      exact ⟨k, v, next', hk, hv, rfl⟩
    · rw [if_neg hvalueDepth, if_neg (fun h => hvalueDepth h.2)]
      exact ⟨_, _, rfl⟩
  · rw [if_neg hkeyDepth, if_neg (fun h => hkeyDepth h.1)]
    exact ⟨_, _, rfl⟩

/-- The run: every entry is written exactly if both sides of every entry are within the limit. -/
theorem setHosts_ok_iff (limit : Nat) (entries : List (Host × Host)) (s : Held) :
    (∀ r ∈ (setHosts limit entries s).1, r = .ok ()) ↔
      ∀ e ∈ entries, e.1.depth ≤ limit ∧ e.2.depth ≤ limit := by
  induction entries generalizing s with
  | nil => simp [setHosts]
  | cons e rest ih =>
    rw [setHosts, List.forall_mem_cons, List.forall_mem_cons, ih]
    apply and_congr_left'
    have hstep := setHost_step limit e.1 e.2 s
    split at hstep
    · rename_i within
      obtain ⟨k, v, next, -, -, hexec⟩ := hstep
      simp [hexec, within]
    · rename_i beyond
      obtain ⟨e', s', hexec⟩ := hstep
      simp [hexec, beyond]

end InPlace

/-- A table without its fallback entries. -/
def Table.ordered {V : Type} (t : Table V) : Table V := { t with fallback := ⟨#[], #[]⟩ }

theorem Table.ordered_eq_self {V : Type} {t : Table V} (h : t.fallback = ⟨#[], #[]⟩) :
    t.ordered = t := by
  rw [ordered, ← h]

theorem Table.ordered_set_table (t : Table Value) {k : Value} (v : Value) (h : k.isTable = true) :
    (t.set k v).ordered = t.ordered := by
  cases k with
  | table i u => rfl
  | _ => cases h

theorem Table.ordered_set (t : Table Value) {k : Value} (v : Value) (h : k.isTable = false) :
    (t.set k v).ordered = t.ordered.set k v := by
  cases k with
  | table i u => cases h
  | _ => rfl

theorem Value.isTable_forget (v : Value) : v.forget.isTable = v.isTable := by
  cases v <;> rfl

namespace InPlace

open Host (imageEntries)

/-- The run: written one by one, the entries whose keys are not composite go to the ordered
partitions as a map writes them, and only the others go to the fallback partition. -/
theorem setHosts_table {limit : Nat} {entries : List (Host × Host)}
    (within : ∀ e ∈ entries, e.1.depth ≤ limit ∧ e.2.depth ≤ limit) (s : Held) :
    (setHosts limit entries s).2.table.ordered.forget =
        s.table.ordered.forget.withEntries (imageEntries entries) ∧
      ((∀ e ∈ entries, e.1.decompose.isComposite = false) →
        (setHosts limit entries s).2.table.fallback = s.table.fallback) := by
  induction entries generalizing s with
  | nil => exact ⟨rfl, fun _ => rfl⟩
  | cons e rest ih =>
    obtain ⟨key, value⟩ := e
    rw [List.forall_mem_cons] at within
    have hstep := setHost_step limit key value s
    rw [if_pos within.1] at hstep
    obtain ⟨k, v, next, hk, hv, hexec⟩ := hstep
    have htable : k.isTable = key.decompose.isComposite := by
      rw [← k.isTable_forget, hk, key.isTable_image]
    obtain ⟨hordered, hfallback⟩ := ih within.2 ⟨s.table.set k v, next⟩
    rw [setHosts, hexec, imageEntries, List.forall_mem_cons]
    dsimp only
    rw [hordered]
    cases composite : key.decompose.isComposite with
    | true =>
      rw [if_pos rfl, Table.ordered_set_table _ _ (htable.trans composite)]
      exact ⟨rfl, fun h => nomatch h.1⟩
    | false =>
      rw [composite] at htable
      rw [if_neg (by decide), Table.ordered_set _ _ htable, Table.forget_set _ _ htable,
        ← hk, Value.forget_eq_self htable, ← hv]
      refine ⟨rfl, fun h => ?_⟩
      rw [hfallback h.2, Table.fallback_set _ _ htable]

/-- All written to an empty table, entries make the ordered partitions of their map, which is within
the limit with one level more. -/
theorem setHosts_like_map {limit : Nat} {entries : List (Host × Host)}
    (within : ∀ e ∈ entries, e.1.depth ≤ limit ∧ e.2.depth ≤ limit) (next next' : Identity) :
    ∃ u m, (Host.map entries).liftTable (limit + 1) next' = .ok (u, m) ∧
      (setHosts limit entries ⟨.empty, next⟩).2.table.ordered.forget = u.forget ∧
      u.fallback = ⟨#[], #[]⟩ := by
  obtain ⟨u, m, hforget, hrun⟩ := Host.lift_map entries next'
  refine ⟨u, m, ?_, ?_, ?_⟩
  · rw [hrun, if_pos]
    exact Host.depth_map_le_iff.mpr fun e he => ⟨(within e he).1, fun _ => (within e he).2⟩
  · rw [(setHosts_table within ⟨.empty, next⟩).1, hforget]
    exact Table.withEntries_empty _
  · refine (Table.wellFormed_of_forget ?_ ?_).2 <;> rw [hforget]
    · exact Table.wellFormed_ofPairs _
    · exact Host.fallback_ofPairs_imageEntries entries

/-- Writing an entry in place answers as the conversion does and is all or nothing, with the error of
the key or else of the value. Entries without composite keys are all written to an empty table
exactly if their map is lifted with one level more, and then they make the same table up to
identities; entries with composite keys, all written, still make the same ordered partitions, and the
map has nothing in its fallback partition. -/
theorem setHost_atomic_like_map (limit : Nat) :
    (∀ (key value : Host) (s : Held),
      match s.table.setHost limit key value s.next with
      | .ok (t, next) => (setHost limit key value).exec s = (.ok (), ⟨t, next⟩)
      | .error e => ((setHost limit key value).exec s).1 = .error e) ∧
    (∀ (key value : Host) (s s' : Held) (e : BridgeError),
      (setHost limit key value).exec s = (.error e, s') →
      s'.table = s.table ∧ (key.liftValue limit s.next = .error e ∨
        ∃ k next, key.liftValue limit s.next = .ok (k, next) ∧
          value.liftValue limit next = .error e)) ∧
    ∀ (entries : List (Host × Host)) (next next' : Identity),
      let one := setHosts limit entries ⟨.empty, next⟩
      let whole := (Host.map entries).liftTable (limit + 1) next'
      ((∀ e ∈ entries, e.1.decompose.isComposite = false) →
        ((∀ r ∈ one.1, r = .ok ()) ↔ ∃ u m, whole = .ok (u, m)) ∧
        ∀ u m, whole = .ok (u, m) → one.2.table.forget = u.forget) ∧
      ((∀ r ∈ one.1, r = .ok ()) → ∃ u m, whole = .ok (u, m) ∧
        one.2.table.ordered.forget = u.ordered.forget ∧ u.fallback.isEmpty = true) := by
  refine ⟨fun key value s => exec_setHost_eq limit key value s,
    fun key value s s' e failed => setHost_failed failed, ?_⟩
  intro entries next next' one whole
  have hok := setHosts_ok_iff limit entries ⟨.empty, next⟩
  constructor
  · intro primitive
    have hiff : (∀ r ∈ one.1, r = .ok ()) ↔ ∃ u m, whole = .ok (u, m) := by
      rw [Host.liftTable_map_ok_iff]
      exact hok.trans (forall₂_congr fun e he => by simp [primitive e he])
    refine ⟨hiff, fun u m h => ?_⟩
    have within := hok.mp (hiff.mpr ⟨u, m, h⟩)
    obtain ⟨u', m', h', hsame, -⟩ := setHosts_like_map within next next'
    cases h.symm.trans h'
    rw [← hsame, Table.ordered_eq_self]
    exact (setHosts_table within ⟨.empty, next⟩).2 primitive
  · intro ok
    obtain ⟨u, m, h, hsame, hfallback⟩ := setHosts_like_map (hok.mp ok) next next'
    refine ⟨u, m, h, ?_, ?_⟩
    · rw [hsame, Table.ordered_eq_self hfallback]
    · rw [hfallback]
      rfl

/-- A value too deep for its table, entries with a null key and a key twice, and a composite key among
them. -/
theorem setHost_atomic_like_map_of_entries :
    let held : Held := ⟨.ofPairs [(.integer 1, .text "b")], 3⟩
    let entries : List (Host × Host) :=
      [(.text "a", .sequence [.integer 1]), (.null, .boolean true), (.text "a", .integer 2)]
    let mixed := (.structured (.list []), .sequence []) :: entries
    ((setHost 0 (.text "a") (.sequence [])).exec held = (.error (.depthExceeded 0), held) ∧
      (Host.text "a").liftValue 0 3 = .ok (.text "a", 3) ∧
      (Host.sequence []).liftValue 0 3 = .error (.depthExceeded 0)) ∧
    (∃ u m, (Host.map entries).liftTable 2 5 = .ok (u, m) ∧
      (setHosts 1 entries ⟨.empty, 0⟩).2.table.forget = u.forget) ∧
    ∃ u m, (Host.map mixed).liftTable 2 5 = .ok (u, m) ∧
      (setHosts 1 mixed ⟨.empty, 0⟩).2.table.ordered.forget = u.ordered.forget ∧
      u.fallback.isEmpty = true := by
  intro held entries mixed
  obtain ⟨-, hfailed, -⟩ := setHost_atomic_like_map 0
  obtain ⟨-, -, hmap⟩ := setHost_atomic_like_map 1
  have within : ∀ e ∈ mixed, e.1.depth ≤ 1 ∧ e.2.depth ≤ 1 := by decide
  refine ⟨⟨rfl, ?_⟩, ?_, ?_⟩
  · rcases (hfailed (.text "a") (.sequence []) held held (.depthExceeded 0) rfl).2 with
      h | ⟨k, next, hkey, hvalue⟩
    · cases h
    · cases hkey
      exact ⟨rfl, hvalue⟩
  · obtain ⟨hiff, hsame⟩ := (hmap entries 0 5).1 (by decide)
    obtain ⟨u, m, hu⟩ := hiff.mp
      ((setHosts_ok_iff 1 entries _).mpr fun e he => within e (List.mem_cons_of_mem _ he))
    exact ⟨u, m, hu, hsame u m hu⟩
  · exact (hmap mixed 0 5).2 ((setHosts_ok_iff 1 mixed _).mpr within)

end InPlace

end ScriptTable
