import ScriptTable.Proofs.Host.Image
import ScriptTable.Proofs.Value.Forget

/-!
Lifting is exact, with an exact depth bound. A conversion either gives one result, whatever the
limit, or refuses the depth; `Lift.Exact` says when and composes along the conversion.
-/

namespace ScriptTable

/-- What a composite has become stands for a table; anything else is the value itself. -/
inductive Lifted.Shows : Lifted → Value → Prop
  | primitive {v : Value} (h : v.isTable = false) : Shows (.primitive v) v
  | table (t : Table Value) : Shows (.table t) (.table 0 t.forget)

theorem Lifted.Shows.eq_primitive {l : Lifted} {v : Value} (h : l.Shows v)
    (hv : v.isTable = false) : l = .primitive v := by
  cases h with
  | primitive => rfl
  | table t => cases hv

theorem Lifted.Shows.exists_table {l : Lifted} {v : Value} (h : l.Shows v)
    (hv : v.isTable = true) : ∃ t, l = .table t := by
  cases h with
  | primitive h => rw [h] at hv; cases hv
  | table t => exact ⟨t, rfl⟩

theorem Value.forget_eq_self {v : Value} (h : v.isTable = false) : v.forget = v := by
  cases v with
  | table i t => cases h
  | _ => rfl

namespace Lift

variable {α β : Type}

/-- A conversion with a limit and a depth gives a result that satisfies `P` if `needed` levels are
left, the same one for every limit, and otherwise refuses the depth. -/
def Exact (m : Nat → Nat → Lift α) (needed : Nat) (P : α → Prop) : Prop :=
  ∀ next, ∃ r : α × Identity, P r.1 ∧ ∀ limit depth,
    m limit depth next =
      if needed ≤ limit + 1 - depth then .ok r else .error (.depthExceeded limit)

theorem bind_apply (x : Lift α) (f : α → Lift β) (next : Identity) :
    (x >>= f) next = match x next with
      | .ok (a, next) => f a next
      | .error e => .error e := by
  change (x next >>= fun r => f r.1 r.2) = _
  cases x next <;> rfl

theorem Exact.pure {P : α → Prop} {a : α} (h : P a) : Exact (fun _ _ => Pure.pure a) 0 P := by
  intro next
  exact ⟨(a, next), h, fun limit depth => (if_pos (Nat.zero_le _)).symm⟩

theorem Exact.settle {l : Lifted} {v : Value} (h : l.Shows v) :
    Exact (fun _ _ => settle l) 0 fun w => w.forget = v := by
  intro next
  cases h with
  | primitive h =>
    exact ⟨(v, next), Value.forget_eq_self h, fun limit depth => (if_pos (Nat.zero_le _)).symm⟩
  | table t => exact ⟨(.table next t, next + 1), rfl, fun limit depth => (if_pos (Nat.zero_le _)).symm⟩

/-- Both parts need their levels. -/
theorem Exact.bind {m : Nat → Nat → Lift α} {f : α → Nat → Nat → Lift β} {needed needed' : Nat}
    {P : α → Prop} {Q : β → Prop} (hm : Exact m needed P)
    (hf : ∀ a, P a → Exact (f a) needed' Q) :
    Exact (fun limit depth => m limit depth >>= fun a => f a limit depth) (max needed needed') Q := by
  intro next
  obtain ⟨r, hr, hrun⟩ := hm next
  obtain ⟨r', hr', hrun'⟩ := hf r.1 hr r.2
  refine ⟨r', hr', ?_⟩
  intro limit depth
  beta_reduce
  rw [bind_apply, hrun]
  by_cases h : needed ≤ limit + 1 - depth
  · rw [if_pos h]
    simp only [hrun', Nat.max_le, h, true_and]
  · rw [if_neg h]
    simp only [Nat.max_le, h, false_and, if_false]

theorem Exact.map {m : Nat → Nat → Lift α} {needed : Nat} {P : α → Prop} {Q : β → Prop} {g : α → β}
    (hm : Exact m needed P) (hg : ∀ a, P a → Q (g a)) :
    Exact (fun limit depth => m limit depth >>= fun a => Pure.pure (g a)) needed Q := by
  have h := hm.bind fun a ha => Exact.pure (hg a ha)
  rwa [Nat.max_zero] at h

/-- A part that is lifted and then used as a value. -/
theorem Exact.settled {m : Nat → Nat → Lift Lifted} {f : Value → Nat → Nat → Lift β}
    {needed needed' : Nat} {v : Value} {Q : β → Prop} (hm : Exact m needed fun l => l.Shows v)
    (hf : ∀ w, w.forget = v → Exact (f w) needed' Q) :
    Exact (fun limit depth => m limit depth >>= fun l => Lift.settle l >>= fun w => f w limit depth)
      (max needed needed') Q := by
  refine hm.bind fun l hl => ?_
  have h := (Exact.settle hl).bind hf
  rwa [Nat.zero_max] at h

/-- A composite needs one level more than what is inside it. -/
theorem Exact.guardDepth {m : Nat → Nat → Lift α} {needed : Nat} {P : α → Prop}
    (hm : Exact m needed P) :
    Exact (fun limit depth => Lift.guardDepth limit depth >>= fun _ => m limit (depth + 1))
      (1 + needed) P := by
  intro next
  obtain ⟨r, hr, hrun⟩ := hm next
  refine ⟨r, hr, ?_⟩
  intro limit depth
  beta_reduce
  rw [bind_apply]
  by_cases h : limit < depth
  · have hguard : Lift.guardDepth limit depth next = .error (.depthExceeded limit) := by
      rw [Lift.guardDepth, if_pos h]
      rfl
    rw [hguard, if_neg (by omega)]
  · have hguard : Lift.guardDepth limit depth next = .ok ((), next) := by
      rw [Lift.guardDepth, if_neg h]
      rfl
    have hlevels : needed ≤ limit + 1 - (depth + 1) ↔ 1 + needed ≤ limit + 1 - depth := by omega
    simp only [hguard, hrun, hlevels]

theorem Exact.table {m : Nat → Nat → Lift (Table Value)} {needed : Nat} {t : Table Value}
    (hm : Exact m needed fun u => u.forget = t) :
    Exact (fun limit depth => Lift.guardDepth limit depth >>= fun _ =>
      m limit (depth + 1) >>= fun u => Pure.pure (Lifted.table u))
      (1 + needed) fun l => l.Shows (.table 0 t) := by
  refine Exact.guardDepth (hm.map fun u hu => ?_)
  rw [← hu]
  exact .table u

end Lift

open Lift

/-- A table under construction, identities forgotten, with its next items. -/
def Table.withItems (t : Table Value) (i : Int) (vs : List Value) : Table Value :=
  { t with integers := t.integers.insertFrom i vs }

def Table.withEntries (t : Table Value) (entries : List (Value × Value)) : Table Value :=
  entries.foldl (fun t (k, v) => t.set k v) t

theorem Table.forget_withItems (t : Table Value) (i : Int) (w : Value) (vs : List Value) :
    (t.setKey (.integer i) w).forget.withItems (i + 1) vs = t.forget.withItems i (w.forget :: vs) := by
  rw [forget_setKey]
  rfl

theorem Table.withItems_empty (vs : List Value) :
    (empty : Table Value).forget.withItems 1 vs = positional vs := by
  rw [forget_empty, ← ofList_eq_positional]
  rfl

theorem Table.withEntries_empty (entries : List (Value × Value)) :
    (empty : Table Value).forget.withEntries entries = ofPairs entries := by
  rw [forget_empty]
  rfl

mutual

theorem Json.exact_liftAt (j : Json) :
    Exact (fun limit depth => j.liftAt limit depth) j.nesting fun l => l.Shows j.image := by
  cases j with
  | null => exact .pure (.primitive rfl)
  | bool b => exact .pure (.primitive rfl)
  | int n =>
    refine .pure (.primitive ?_)
    rw [Value.ofInt]
    split <;> rfl
  | float x => exact .pure (.primitive rfl)
  | text s => exact .pure (.primitive rfl)
  | list items =>
    have h := Json.exact_liftItems items 1 .empty
    rw [Table.withItems_empty] at h
    exact h.table
  | object fields =>
    have h := Json.exact_liftFields fields .empty
    rw [Table.withEntries_empty] at h
    exact h.table

theorem Json.exact_liftItems (items : List Json) (i : Int) (t : Table Value) :
    Exact (fun limit depth => Json.liftItems limit depth items i t) (nestingAll items)
      fun u => u.forget = t.forget.withItems i (imageItems items) := by
  match items with
  | [] => exact .pure rfl
  | j :: rest =>
    refine Exact.settled (Json.exact_liftAt j) fun w hw => ?_
    have hrest := Json.exact_liftItems rest (i + 1) (t.setKey (.integer i) w)
    rwa [Table.forget_withItems, hw] at hrest

theorem Json.exact_liftFields (fields : List (String × Json)) (t : Table Value) :
    Exact (fun limit depth => Json.liftFields limit depth fields t) (nestingFields fields)
      fun u => u.forget = t.forget.withEntries (imageFields fields) := by
  match fields with
  | [] => exact .pure rfl
  | (name, j) :: rest =>
    refine Exact.settled (Json.exact_liftAt j) fun w hw => ?_
    have hrest := Json.exact_liftFields rest (t.setKey (.text name) w)
    rwa [Table.forget_setKey, hw] at hrest

end

mutual

theorem Host.exact_liftAt (h : Host) :
    Exact (fun limit depth => h.liftAt limit depth) h.depth fun l => l.Shows h.image := by
  cases h with
  | null => exact .pure (.primitive rfl)
  | integer n => exact .pure (.primitive rfl)
  | float x => exact .pure (.primitive rfl)
  | boolean b => exact .pure (.primitive rfl)
  | text s => exact .pure (.primitive rfl)
  | structured j => exact j.exact_liftAt
  | sequence items =>
    have h := Host.exact_liftItems items 1 .empty
    rw [Table.withItems_empty] at h
    exact h.table
  | map entries =>
    have h := Host.exact_liftEntries entries .empty
    rw [Table.withEntries_empty] at h
    exact h.table

theorem Host.exact_liftItems (items : List Host) (i : Int) (t : Table Value) :
    Exact (fun limit depth => Host.liftItems limit depth items i t) (depthItems items)
      fun u => u.forget = t.forget.withItems i (imageItems items) := by
  match items with
  | [] => exact .pure rfl
  | h :: rest =>
    refine Exact.settled (Host.exact_liftAt h) fun w hw => ?_
    have hrest := Host.exact_liftItems rest (i + 1) (t.setKey (.integer i) w)
    rwa [Table.forget_withItems, hw] at hrest

theorem Host.exact_liftEntries (entries : List (Host × Host)) (t : Table Value) :
    Exact (fun limit depth => Host.liftEntries limit depth entries t) (depthEntries entries)
      fun u => u.forget = t.forget.withEntries (imageEntries entries) := by
  match entries with
  | [] => exact .pure rfl
  | (k, h) :: rest =>
    have hkey := Host.exact_liftAt k
    by_cases hk : k.decompose.isComposite = true
    · rw [depthEntries, imageEntries, if_pos hk, if_pos hk, Nat.max_zero]
      refine hkey.bind fun l hl => ?_
      obtain ⟨u, rfl⟩ := hl.exists_table (by rw [k.isTable_image, hk])
      exact Host.exact_liftEntries rest t
    · have hprimitive : k.image.isTable = false := by rwa [k.isTable_image, ← Bool.not_eq_true]
      rw [depthEntries, imageEntries, if_neg hk, if_neg hk, Nat.max_assoc]
      refine hkey.bind fun l hl => ?_
      rw [hl.eq_primitive hprimitive]
      refine Exact.settled (Host.exact_liftAt h) fun w hw => ?_
      have hrest := Host.exact_liftEntries rest (t.set k.image w)
      rwa [Table.forget_set t w hprimitive, hw] at hrest

end

theorem Host.exact_liftSettled (h : Host) :
    Exact (fun limit depth => h.liftAt limit depth >>= settle) h.depth
      fun v => v.forget = h.image := by
  have hsettled := h.exact_liftAt.bind fun l hl => Exact.settle hl
  rwa [Nat.max_zero] at hsettled

theorem Host.liftValue_eq (h : Host) (next : Identity) :
    ∃ v next', v.forget = h.image ∧ ∀ limit, h.liftValue limit next =
      if h.depth ≤ limit then .ok (v, next') else .error (.depthExceeded limit) := by
  obtain ⟨⟨v, next'⟩, hv, hrun⟩ := h.exact_liftSettled next
  exact ⟨v, next', hv, fun limit => hrun limit 1⟩

theorem Host.forget_of_liftValue {h : Host} {limit : Nat} {next next' : Identity} {v : Value}
    (run : h.liftValue limit next = .ok (v, next')) : v.forget = h.image := by
  obtain ⟨w, m, hw, hrun⟩ := h.liftValue_eq next
  rw [hrun] at run
  split at run <;> cases run
  exact hw

/-- Whatever the counter starts from, a host value within the limit becomes its image, the same one
for every limit, and a deeper one is refused. No other error is possible. -/
theorem Host.liftValue_exact (h : Host) :
    h.depth = h.decompose.depth ∧ h.image = h.decompose.image ∧
      (∀ next, ∃ v next', v.forget = h.image ∧ ∀ limit,
        h.liftValue limit next =
          if h.depth ≤ limit then .ok (v, next') else .error (.depthExceeded limit)) ∧
      ∀ next limit limit' r, limit ≤ limit' → h.liftValue limit next = .ok r →
        h.liftValue limit' next = .ok r := by
  refine ⟨h.depth_decompose.symm, h.image_decompose.symm, h.liftValue_eq, ?_⟩
  intro next limit limit' r hle hr
  obtain ⟨v, next', -, hrun⟩ := h.liftValue_eq next
  rw [hrun] at hr ⊢
  split at hr
  · rw [if_pos (by omega)]
    exact hr
  · cases hr

/-- The value under the composite key is deeper than the limit and not looked at. -/
theorem Host.liftValue_at_depth :
    (Host.map [(.sequence [], .sequence [.sequence []]), (.null, .sequence [])]).depth = 2 ∧
      (Host.map [(.sequence [], .sequence [.sequence []]), (.null, .sequence [])]).liftValue 7 0 =
        .ok (.table 1 .empty, 2) :=
  ⟨rfl, (Host.liftValue_exact _).2.2.2 0 2 7 _ (by decide) rfl⟩

end ScriptTable
