import ScriptTable.Proofs.Lift.Composite
import ScriptTable.Proofs.Table.WellFormed
import ScriptTable.Proofs.Value.Inside

/-!
The identities of what conversions make. They come from a counter that a conversion never turns back,
so all of them, at any depth, are below the counter as the conversion leaves it, and a table that a
composite becomes has an identity that nothing had before.
-/

namespace ScriptTable

/-- Values made before the counter came to `next`: all identities in them are below it. Their tables
are well formed. -/
inductive Value.Drawn (next : Identity) : Value → Prop
  | primitive {v : Value} (h : v.isTable = false) : Value.Drawn next v
  | table {i : Identity} {t : Table Value} (below : i < next) (wf : t.WellFormed)
      (contents : ∀ v ∈ t.contents, Value.Drawn next v) : Value.Drawn next (.table i t)

structure Table.Drawn (next : Identity) (t : Table Value) : Prop where
  wf : t.WellFormed
  contents : ∀ v ∈ t.contents, v.Drawn next

namespace Value.Drawn

variable {next next' : Identity} {v : Value}

theorem mono (h : v.Drawn next) (hle : next ≤ next') : v.Drawn next' := by
  induction h with
  | primitive h => exact .primitive h
  | table below wf _ ih => exact .table (Nat.lt_of_lt_of_le below hle) wf ih

theorem opened {i : Identity} {t : Table Value} (h : (Value.table i t).Drawn next) :
    i < next ∧ t.Drawn next := by
  cases h with
  | primitive h => cases h
  | table below wf contents => exact ⟨below, wf, contents⟩

end Value.Drawn

namespace Table.Drawn

variable {next next' : Identity} {t : Table Value}

theorem empty (next : Identity) : (Table.empty : Table Value).Drawn next :=
  ⟨wellFormed_empty, by simp⟩

theorem mono (h : t.Drawn next) (hle : next ≤ next') : t.Drawn next' :=
  ⟨h.wf, fun v hv => (h.contents v hv).mono hle⟩

theorem set {k v : Value} (h : t.Drawn next) (hk : k.Drawn next) (hv : v.Drawn next) :
    (t.set k v).Drawn next := by
  refine ⟨h.wf.set k v, fun w hw => ?_⟩
  rcases mem_contents_set hw with ⟨rfl, -⟩ | rfl | hw
  · exact hk
  · exact hv
  · exact h.contents w hw

theorem setKey {v : Value} (h : t.Drawn next) (k : Key) (hv : v.Drawn next) :
    (t.setKey k v).Drawn next := by
  refine ⟨h.wf.setKey k v, fun w hw => ?_⟩
  rcases mem_contents_setKey hw with rfl | hw
  · exact hv
  · exact h.contents w hw

/-- A table as a value, under the identity that is drawn for it. -/
theorem wrap (h : t.Drawn next) : (Value.table next t).Drawn (next + 1) :=
  .table (Nat.lt_succ_self next) h.wf (h.mono (Nat.le_succ next)).contents

end Table.Drawn

def Lifted.Drawn (next : Identity) : Lifted → Prop
  | .primitive v => v.isTable = false
  | .table t => t.Drawn next

namespace Lift

variable {α β : Type} {next : Identity} {P : Identity → α → Prop} {Q : Identity → β → Prop}

/-- Starting from `next`, a conversion that succeeds has not turned the counter back, and where the
counter stands then, `P` holds of its result. -/
def Draws (next : Identity) (m : Lift α) (P : Identity → α → Prop) : Prop :=
  ∀ a next', m next = .ok (a, next') → next ≤ next' ∧ P next' a

theorem Draws.pure {a : α} (h : P next a) : Draws next (Pure.pure a) P := by
  rintro b next' run
  cases run
  exact ⟨le_rfl, h⟩

theorem Draws.bind {m : Lift α} {f : α → Lift β} (hm : Draws next m P)
    (hf : ∀ a next', next ≤ next' → P next' a → Draws next' (f a) Q) :
    Draws next (m >>= f) Q := by
  intro b last run
  rw [bind_apply] at run
  split at run
  · rename_i a middle hrun
    obtain ⟨hle, ha⟩ := hm a middle hrun
    obtain ⟨hle', hb⟩ := hf a middle hle ha b last run
    exact ⟨hle.trans hle', hb⟩
  · cases run

theorem Draws.settle {l : Lifted} (h : l.Drawn next) :
    Draws next (settle l) fun next' v => v.Drawn next' := by
  cases l with
  | primitive v => exact .pure (.primitive h)
  | table t =>
    rintro v next' run
    cases run
    exact ⟨Nat.le_succ next, h.wrap⟩

/-- A part that is lifted and then used as a value. -/
theorem Draws.settled {m : Lift Lifted} {f : Value → Lift β}
    (hm : Draws next m fun next' l => l.Drawn next')
    (hf : ∀ v next', next ≤ next' → v.Drawn next' → Draws next' (f v) Q) :
    Draws next (m >>= fun l => Lift.settle l >>= f) Q :=
  hm.bind fun _ _ hle hl => (Draws.settle hl).bind fun v _ hle' hv => hf v _ (hle.trans hle') hv

/-- A composite, once it is let through. -/
theorem Draws.table {m : Lift (Table Value)} (limit depth : Nat)
    (hm : Draws next m fun next' t => t.Drawn next') :
    Draws next (guardDepth limit depth >>= fun _ => m >>= fun t => Pure.pure (Lifted.table t))
      fun next' l => l.Drawn next' := by
  have hguard : Draws next (guardDepth limit depth) fun next' _ => next' = next := by
    intro a next' run
    rw [guardDepth] at run
    split at run <;> cases run
    exact ⟨le_rfl, rfl⟩
  refine hguard.bind ?_
  rintro - next' - rfl
  exact hm.bind fun t _ _ ht => .pure ht

end Lift

open Lift (Draws)

mutual

theorem Json.draws_liftAt (limit depth : Nat) (j : Json) (next : Identity) :
    Draws next (j.liftAt limit depth) fun next' l => l.Drawn next' := by
  cases j with
  | list items => exact .table limit depth (Json.draws_liftItems limit _ items 1 (.empty next))
  | object fields => exact .table limit depth (Json.draws_liftFields limit _ fields (.empty next))
  | int n =>
    apply Draws.pure
    rw [Lifted.Drawn, Value.ofInt]
    split <;> rfl
  | _ => exact Draws.pure rfl

theorem Json.draws_liftItems (limit depth : Nat) (items : List Json) (i : Int) {t : Table Value}
    {next : Identity} (ht : t.Drawn next) :
    Draws next (Json.liftItems limit depth items i t) fun next' u => u.Drawn next' := by
  match items with
  | [] => exact .pure ht
  | j :: rest =>
    refine Draws.settled (Json.draws_liftAt limit depth j next) fun v next' hle hv => ?_
    exact Json.draws_liftItems limit depth rest (i + 1) ((ht.mono hle).setKey _ hv)

theorem Json.draws_liftFields (limit depth : Nat) (fields : List (String × Json)) {t : Table Value}
    {next : Identity} (ht : t.Drawn next) :
    Draws next (Json.liftFields limit depth fields t) fun next' u => u.Drawn next' := by
  match fields with
  | [] => exact .pure ht
  | (name, j) :: rest =>
    refine Draws.settled (Json.draws_liftAt limit depth j next) fun v next' hle hv => ?_
    exact Json.draws_liftFields limit depth rest ((ht.mono hle).setKey _ hv)

end

namespace Host

mutual

theorem draws_liftAt (limit depth : Nat) (h : Host) (next : Identity) :
    Draws next (h.liftAt limit depth) fun next' l => l.Drawn next' := by
  cases h with
  | sequence items => exact .table limit depth (draws_liftItems limit _ items 1 (.empty next))
  | map entries => exact .table limit depth (draws_liftEntries limit _ entries (.empty next))
  | structured j => exact j.draws_liftAt limit depth next
  | _ => exact Draws.pure rfl

theorem draws_liftItems (limit depth : Nat) (items : List Host) (i : Int) {t : Table Value}
    {next : Identity} (ht : t.Drawn next) :
    Draws next (liftItems limit depth items i t) fun next' u => u.Drawn next' := by
  match items with
  | [] => exact .pure ht
  | h :: rest =>
    refine Draws.settled (draws_liftAt limit depth h next) fun v next' hle hv => ?_
    exact draws_liftItems limit depth rest (i + 1) ((ht.mono hle).setKey _ hv)

theorem draws_liftEntries (limit depth : Nat) (entries : List (Host × Host)) {t : Table Value}
    {next : Identity} (ht : t.Drawn next) :
    Draws next (liftEntries limit depth entries t) fun next' u => u.Drawn next' := by
  match entries with
  | [] => exact .pure ht
  | (k, h) :: rest =>
    refine (draws_liftAt limit depth k next).bind fun l middle hle hl => ?_
    cases l with
    | table u => exact draws_liftEntries limit depth rest (ht.mono hle)
    | primitive key =>
      refine Draws.settled (draws_liftAt limit depth h middle) fun v next' hle' hv => ?_
      exact draws_liftEntries limit depth rest ((ht.mono (hle.trans hle')).set (.primitive hl) hv)

end

theorem draws_liftValue (limit : Nat) (h : Host) (next : Identity) :
    Draws next (h.liftValue limit) fun next' v => v.Drawn next' :=
  (draws_liftAt limit 1 h next).bind fun _ _ _ hl => .settle hl

theorem draws_liftTable (limit : Nat) (h : Host) (next : Identity) :
    Draws next (h.liftTable limit) fun next' t => t.Drawn next' := by
  intro t next' run
  cases limit with
  | zero =>
    rw [liftTable_zero] at run
    cases run
  | succ limit =>
    rw [liftTable_apply] at run
    split at run
    · rename_i u n hlift
      cases run
      exact draws_liftAt (limit + 1) 1 h next _ _ hlift
    · cases run
    · cases run

/-- The table that a composite becomes is new. -/
theorem fresh_of_composite {h : Host} (composite : h.decompose.isComposite = true) {limit : Nat}
    {next next' : Identity} {v : Value} (run : h.liftValue limit next = .ok (v, next')) :
    ∃ i t, v = .table i t ∧ next ≤ i := by
  obtain ⟨t, i, -, hrun⟩ := h.lift_composite composite next
  obtain ⟨htable, hvalue⟩ := hrun limit
  by_cases within : h.depth ≤ limit
  · rw [if_pos within] at htable hvalue
    rw [hvalue] at run
    cases run
    exact ⟨i, t, rfl, (h.draws_liftTable limit next t i htable).1⟩
  · rw [if_neg within] at hvalue
    rw [hvalue] at run
    cases run

end Host

end ScriptTable
