import ScriptTable.Proofs.Bridge.Context
import ScriptTable.Proofs.Lift.Orderly
import ScriptTable.Proofs.Table.KeyOrder
import ScriptTable.Proofs.Value.Render

/-!
Lists as tables and tables as lists. A list that is collected, or a sequence that is lifted, stands
under the keys 1, 2, 3 and so on, where the list view finds it again. Of any other table the list view
keeps the values in the order of their keys and forgets the keys, so collecting it renumbers them.
-/

namespace ScriptTable

variable {V : Type}

theorem Sorted.mem_keysFrom {k n : Int} {m : Nat} : n ∈ keysFrom k m ↔ k ≤ n ∧ n < k + m := by
  rw [keysFrom, List.mem_map]
  constructor
  · rintro ⟨i, hi, rfl⟩
    rw [List.mem_range] at hi
    rw [Int.ofNat_eq_natCast]
    omega
  · rintro ⟨hlow, hhigh⟩
    refine ⟨(n - k).toNat, List.mem_range.mpr (by omega), ?_⟩
    rw [Int.ofNat_eq_natCast]
    omega

namespace Table

theorem asList_ofList (vs : List V) : (ofList vs).asList = vs := by
  rw [ofList_eq_positional]
  rfl

theorem wellFormed_ofList (vs : List Value) : (ofList vs).WellFormed := by
  rw [ofList_eq_positional]
  exact wellFormed_positional vs

theorem integerEntries_ofList (vs : List V) :
    (ofList vs).integerEntries = (Sorted.keysFrom 1 vs.length).zip vs := by
  rw [ofList_eq_positional]
  rfl

/-- A list is found under the numbers from 1 on. -/
theorem get?_ofList (vs : List Value) (i : Nat) : (ofList vs).get? (.integer (i + 1)) = vs[i]? := by
  have wf := (wellFormed_ofList vs).integers
  have hkeys : (ofList vs).integers.keys.toList = Sorted.keysFrom 1 vs.length := by
    rw [ofList_eq_positional]
    rfl
  rw [get?, wf.get?_eq_lookup]
  change (ofList vs).integerEntries.lookup _ = _
  rw [integerEntries_ofList]
  have hlength : (Sorted.keysFrom 1 vs.length).length = vs.length := by simp [Sorted.keysFrom]
  by_cases hi : i < vs.length
  · apply lookup_zip hlength (hkeys ▸ wf.nodup)
    rw [Sorted.keysFrom, List.getElem?_map, List.getElem?_range hi, Option.map_some,
      Int.ofNat_eq_natCast, Int.add_comm]
  · rw [List.getElem?_eq_none (by omega)]
    apply lookup_eq_none_of_not_mem
    rw [List.map_fst_zip hlength.le, Sorted.mem_keysFrom]
    omega

/-- A table that holds a list under 1, 2, 3 and so on, and nothing else. -/
structure Lists (t : Table Value) (vs : List Value) : Prop where
  pairs : t.pairs = ((Sorted.keysFrom 1 vs.length).zip vs).map fun e => (.integer e.1, e.2)
  lookups : ∀ i : Nat, t.get? (.integer (i + 1)) = vs[i]?
  others : t = { empty with integers := t.integers }
  list : t.asList = vs

theorem lists_ofList (vs : List Value) : (ofList vs).Lists vs where
  pairs := by
    rw [(wellFormed_ofList vs).pairs_eq_entries, ofList_eq_positional, entries_positional]
  lookups := get?_ofList vs
  others := rfl
  list := asList_ofList vs

/-- Collecting the list view gives the whole numbers back if they were 1 to some number, and only
then. -/
theorem WellFormed.ofList_asList_iff {t : Table Value} (wf : t.WellFormed) :
    (ofList t.asList).integers = t.integers ↔
      ∃ m : Nat, ∀ n : Int, (t.get? (.integer n)).isSome = true ↔ 1 ≤ n ∧ n ≤ m := by
  have hcollected : (ofList t.asList).integers.keys.toList =
      Sorted.keysFrom 1 t.integers.keys.size := by
    rw [ofList_eq_positional, wf.integers.aligned]
    simp [positional, asList]
  simp only [← wf.mem_integers_iff]
  constructor
  · intro h
    refine ⟨t.integers.keys.size, fun n => ?_⟩
    rw [← h, hcollected, Sorted.mem_keysFrom, h]
    omega
  · rintro ⟨m, hm⟩
    have ascending : (Sorted.keysFrom 1 m).Pairwise (· < ·) := by
      have h := (wellFormed_ofList (List.replicate m Value.none)).integers.ascending
      simpa [ofList_eq_positional, positional] using h
    have hkeys : t.integers.keys.toList = Sorted.keysFrom 1 m := by
      apply wf.integers.ascending.eq_of_mem_iff ascending
      intro n
      rw [hm, Sorted.mem_keysFrom]
      omega
    have hsize : t.integers.keys.size = m := by
      rw [← Array.length_toList, hkeys]
      simp [Sorted.keysFrom]
    apply (wellFormed_ofList _).integers.ext_entries wf.integers
    change (ofList t.asList).integerEntries = _
    rw [integerEntries_ofList, Sorted.entries, hkeys, asList, Array.length_toList,
      ← wf.integers.aligned, hsize]

end Table

namespace Host

/-- A value is lifted alike at every depth that leaves it enough levels. -/
theorem liftSettled_of_liftValue {h : Host} {limit depth : Nat} {next : Identity}
    {r : Value × Identity} (lifted : h.liftValue limit next = .ok r)
    (within : h.depth ≤ limit + 1 - depth) :
    (h.liftAt limit depth >>= Lift.settle) next = .ok r := by
  obtain ⟨r', -, hrun⟩ := h.exact_liftSettled next
  have hinner : (h.liftAt limit depth >>= Lift.settle) next = _ := hrun limit depth
  have houter : h.liftValue limit next = _ := hrun limit 1
  rw [if_pos within] at hinner
  rw [houter] at lifted
  split at lifted
  · rw [hinner, lifted]
  · cases lifted

/-- Items are lifted as arguments are converted, and stand under successive numbers. -/
theorem liftItems_of_converted {c : Config} {items : List Host} {next m : Identity}
    {vs : List Value} (converted : Bridge.convertArgs c items next = .ok (vs, m))
    (within : ∀ h ∈ items, h.depth ≤ c.maxDepth - 1) (i : Int) (t : Table Value) :
    liftItems c.maxDepth 2 items i t next = .ok (t.withItems i vs, m) := by
  induction items generalizing next vs i t with
  | nil =>
    cases converted
    rfl
  | cons h rest ih =>
    obtain ⟨v, n, ws, rfl, hlift, hrest⟩ := Bridge.convertArgs_cons_ok converted
    rw [List.forall_mem_cons] at within
    have hstep : liftItems c.maxDepth 2 (h :: rest) i t =
        (h.liftAt c.maxDepth 2 >>= Lift.settle) >>= fun v =>
          liftItems c.maxDepth 2 rest (i + 1) (t.setKey (.integer i) v) := by
      rw [liftItems, bind_assoc]
    rw [hstep, Lift.bind_apply, liftSettled_of_liftValue hlift (by omega)]
    exact ih hrest within.2 (i + 1) (t.setKey (.integer i) v)

/-- A sequence is lifted to the table that is collected from its items, each lifted in turn. -/
theorem liftValue_sequence {c : Config} {items : List Host} {next m : Identity} {v : Value}
    (lifted : (sequence items).liftValue c.maxDepth next = .ok (v, m)) :
    ∃ vs n, Bridge.convertArgs c items next = .ok (vs, n) ∧
      List.Forall₂ (fun h w => ∃ n n', h.liftValue c.maxDepth n = .ok (w, n')) items vs ∧
      v = .table n (.ofList vs) := by
  have hdepth : (sequence items).depth ≤ c.maxDepth := by
    obtain ⟨w, n, -, hrun⟩ := (sequence items).liftValue_eq next
    by_contra beyond
    rw [hrun, if_neg beyond] at lifted
    cases lifted
  rw [depth] at hdepth
  have within : ∀ h ∈ items, h.depth ≤ c.maxDepth - 1 := depthItems_le_iff.mp (by omega)
  obtain ⟨vs, n, hconverted, hvalues⟩ :=
    Bridge.convertArgs_within (c := c) (fun h hh => (within h hh).trans (by omega)) next
  refine ⟨vs, n, hconverted, hvalues, ?_⟩
  obtain ⟨limit, hlimit⟩ : ∃ limit, c.maxDepth = limit + 1 := ⟨c.maxDepth - 1, by omega⟩
  have hguard : Lift.guardDepth c.maxDepth 1 next = .ok ((), next) := by
    rw [hlimit, guardDepth_succ]
  rw [liftValue, liftAt, Lift.bind_apply, Lift.bind_apply, hguard] at lifted
  dsimp only at lifted
  rw [Lift.bind_apply, liftItems_of_converted hconverted within] at lifted
  cases lifted
  rfl

end Host

/-- A list that is collected stands under 1 to its length and is its table's list view. A sequence
that is lifted is the table collected from its items, each lifted in turn, and answers them as its
list. Of any table the list view has the values in the ascending order of their keys; collected again
they are renumbered and keep their list view, and the whole numbers come back exactly if they were 1
to some number. -/
theorem list_views_agree :
    (∀ vs : List Value, (Table.ofList vs).Lists vs) ∧
    (∀ (c : Config) (items : List Host) (next m : Identity) (v : Value),
      (Host.sequence items).liftValue c.maxDepth next = .ok (v, m) →
      ∃ vs n, Bridge.convertArgs c items next = .ok (vs, n) ∧
        List.Forall₂ (fun h w => ∃ n n', h.liftValue c.maxDepth n = .ok (w, n')) items vs ∧
        v = .table n (.ofList vs) ∧ Bridge.toList v = .ok vs ∧ vs.length = items.length) ∧
    ∀ t : Table Value, t.Reachable →
      let u := Table.ofList t.asList
      u.asList = t.asList ∧
      u.integerEntries = (Sorted.keysFrom 1 t.asList.length).zip t.asList ∧
      t.integerEntries.map Prod.snd = t.asList ∧
      (t.integerEntries.map Prod.fst).Pairwise (· < ·) ∧
      (u.integers = t.integers ↔
        ∃ m : Nat, ∀ n : Int, (t.get? (.integer n)).isSome = true ↔ 1 ≤ n ∧ n ≤ m) := by
  refine ⟨Table.lists_ofList, ?_, ?_⟩
  · intro c items next m v lifted
    obtain ⟨vs, n, hconverted, hvalues, rfl⟩ := Host.liftValue_sequence lifted
    refine ⟨vs, n, hconverted, hvalues, rfl, ?_, hvalues.length_eq.symm⟩
    change Except.ok (Table.ofList vs).asList = _
    rw [Table.asList_ofList]
  · intro t reachable u
    have wf := reachable.wellFormed
    refine ⟨Table.asList_ofList _, Table.integerEntries_ofList _, wf.integers.entries_values, ?_,
      wf.ofList_asList_iff⟩
    rw [Table.integerEntries, wf.integers.entries_keys]
    exact wf.integers.ascending

/-- An item that is absent and one that is a sequence, and a table whose keys leave a gap. -/
theorem list_views_agree_over_gap :
    let items : List Host := [.null, .sequence [.text "a"], .integer 7]
    let t : Table Value := (Table.empty.set (.integer 3) (.text "b")).set (.integer 1) .none
    (∃ v, (Host.sequence items).liftValue 2 5 = .ok (v, 7) ∧
      Bridge.toList v = .ok [.none, .table 5 (.ofList [.text "a"]), .integer 7]) ∧
    (Table.ofList t.asList).asList = t.asList ∧
    (Table.ofList t.asList).integers ≠ t.integers := by
  intro items t
  have reachable : t.Reachable :=
    (Table.Reachable.empty.set (.integer rfl) (.text "b")).set (.integer rfl) .none
  have hget : ∀ n, t.get? (.integer n) =
      if 1 = n then some .none else if 3 = n then some (.text "b") else none := by
    intro n
    rw [(Table.wellFormed_empty.set _ _).get?_set, Table.wellFormed_empty.get?_set, Table.get?_empty]
    simp [Value.sameKey]
  obtain ⟨-, hsequence, htable⟩ := list_views_agree
  obtain ⟨hlist, -, -, -, hiff⟩ := htable t reachable
  refine ⟨?_, hlist, ?_⟩
  · obtain ⟨vs, n, hconverted, -, -, hanswer, -⟩ := hsequence ⟨2⟩ items 5 7 _ rfl
    cases hconverted
    exact ⟨_, rfl, hanswer⟩
  · intro hsame
    obtain ⟨m, hm⟩ := hiff.mp hsame
    have hthree := (hm 3).mp (by rw [hget]; rfl)
    have htwo := (hm 2).mpr (by omega)
    rw [hget] at htwo
    cases htwo

end ScriptTable
