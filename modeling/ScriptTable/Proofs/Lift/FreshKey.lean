import Mathlib.Logic.Relation
import ScriptTable.Proofs.Lift.Identities
import ScriptTable.Proofs.Lift.InPlace
import ScriptTable.Proofs.Table.KeyOrder

/-!
A composite key written from the host. It becomes a table with an identity that no value had before,
so it is a new key of the fallback partition however often an equal host key was written, and nothing
that could be looked up before is found differently. What there was before is what a program comes to
hold in any run of steps that make tables and values.
-/

namespace ScriptTable

open Lift (Draws)

namespace Table

variable {t t' : Table Value} {next next' : Identity}

/-- What a write from the host does if it succeeds. -/
theorem setHost_cases {limit : Nat} {key value : Host}
    (run : t.setHost limit key value next = .ok (t', next')) :
    ∃ k v middle, key.liftValue limit next = .ok (k, middle) ∧
      value.liftValue limit middle = .ok (v, next') ∧ t' = t.set k v := by
  rw [setHost, Lift.bind_apply] at run
  split at run
  · rename_i k middle hkey
    rw [Lift.bind_apply] at run
    split at run
    · rename_i v last hvalue
      cases run
      exact ⟨k, v, middle, hkey, hvalue, rfl⟩
    · cases run
  · cases run

namespace Drawn

variable (drawn : t.Drawn next)
include drawn

theorem setHost (limit : Nat) (key value : Host) :
    Draws next (t.setHost limit key value) fun next' u => u.Drawn next' :=
  (key.draws_liftValue limit next).bind fun _ middle hle hk =>
    (value.draws_liftValue limit middle).bind fun _ _ hle' hv =>
      .pure ((drawn.mono (hle.trans hle')).set (hk.mono hle') hv)

theorem identity_lt {i : Identity} (h : i ∈ t.fallback.identities) : i < next := by
  obtain ⟨k, hk, hidentity⟩ := List.mem_filterMap.mp h
  have hcontents : k ∈ t.contents := by
    simp only [Table.contents, List.mem_append]
    exact .inl (.inr hk)
  cases k with
  | table j u =>
    cases hidentity
    exact (drawn.contents _ hcontents).opened.1
  | _ => cases hidentity

variable {i : Identity} (fresh : next ≤ i) (u : Table Value)
include fresh

theorem get?_fresh : t.get? (.table i u) = none := by
  rw [drawn.wf.get?_table_eq_none_iff]
  intro h
  exact absurd (drawn.identity_lt h) (Nat.not_lt.mpr fresh)

theorem size_set_fresh (v : Value) :
    (t.set (.table i u) v).fallback.size = t.fallback.size + 1 := by
  have absent : t.fallback.identities.contains i = false := by
    have h := drawn.wf.get?_table_eq_none_iff i u |>.mp (drawn.get?_fresh fresh u)
    simpa using h
  rw [← (drawn.wf.set _ v).fallback.length_identities, ← drawn.wf.fallback.length_identities,
    set_table, drawn.wf.fallback.identities_insert, absent]
  simp

/-- A write under a new table changes no lookup of what there was before. -/
theorem get?_set_fresh (v : Value) {j : Value} (hj : j.Drawn next) :
    (t.set (.table i u) v).get? j = t.get? j := by
  have different : (Value.table i u).sameKey j = false := by
    cases j with
    | table i' u' =>
      have hlt : i' < i := Nat.lt_of_lt_of_le hj.opened.1 fresh
      rw [Value.sameKey, beq_eq_false_iff_ne]
      exact hlt.ne'
    | _ => rfl
  rw [drawn.wf.get?_set, different, if_neg (by decide)]

end Drawn

end Table

/-- The tables that a program owns, the values that it passes around and the counter for identities.
Nothing is let go: a table that was changed is still here as it was before. -/
structure World where
  tables : List (Table Value)
  values : List Value
  next : Identity

namespace World

def start : World := ⟨[], [], 0⟩

def withTable (w : World) (t : Table Value) (next : Identity) : World :=
  { w with tables := t :: w.tables, next }

def withValue (w : World) (v : Value) (next : Identity) : World :=
  { w with values := v :: w.values, next }

/-- One more table or value. A table becomes a value under the next identity, the contents of a value
that is one may be copied, and what is stored in a table may be read. -/
inductive Step (w : World) : World → Prop
  | empty : Step w (w.withTable .empty w.next)
  | primitive {v : Value} (h : v.isTable = false) : Step w (w.withValue v w.next)
  | set {t : Table Value} {k v : Value} (ht : t ∈ w.tables) (hk : k ∈ w.values)
      (hv : v ∈ w.values) : Step w (w.withTable (t.set k v) w.next)
  | setHost {t t' : Table Value} {limit : Nat} {key value : Host} {next : Identity}
      (ht : t ∈ w.tables) (run : t.setHost limit key value w.next = .ok (t', next)) :
      Step w (w.withTable t' next)
  | liftValue {h : Host} {limit : Nat} {v : Value} {next : Identity}
      (run : h.liftValue limit w.next = .ok (v, next)) : Step w (w.withValue v next)
  | liftTable {h : Host} {limit : Nat} {t : Table Value} {next : Identity}
      (run : h.liftTable limit w.next = .ok (t, next)) : Step w (w.withTable t next)
  | wrap {t : Table Value} (ht : t ∈ w.tables) :
      Step w (w.withValue (.table w.next t) (w.next + 1))
  | copy {i : Identity} {t : Table Value} (ht : .table i t ∈ w.values) :
      Step w (w.withTable t w.next)
  | read {t : Table Value} {v : Value} (ht : t ∈ w.tables) (hv : v ∈ t.contents) :
      Step w (w.withValue v w.next)

def Reached : World → Prop := Relation.ReflTransGen Step start

/-- The values that there are: every primitive, and the tables that are held or stored, at any depth,
in what is held. -/
inductive Present (w : World) : Value → Prop
  | primitive {v : Value} (h : v.isTable = false) : Present w v
  | held {v : Value} (h : v ∈ w.values) : Present w v
  | stored {t : Table Value} {v : Value} (ht : t ∈ w.tables) (hv : v ∈ t.contents) : Present w v
  | inside {i : Identity} {t : Table Value} {v : Value} (ht : Present w (.table i t))
      (hv : v ∈ t.contents) : Present w v

/-- All that is held was made before the counter came to where it stands. -/
structure Drawn (w : World) : Prop where
  tables : ∀ t ∈ w.tables, t.Drawn w.next
  values : ∀ v ∈ w.values, v.Drawn w.next

variable {w w' : World}

theorem drawn_start : start.Drawn := ⟨by simp [start], by simp [start]⟩

theorem Drawn.withTable (drawn : w.Drawn) {t : Table Value} {next : Identity} (hle : w.next ≤ next)
    (ht : t.Drawn next) : (w.withTable t next).Drawn :=
  ⟨List.forall_mem_cons.mpr ⟨ht, fun u hu => (drawn.tables u hu).mono hle⟩,
    fun v hv => (drawn.values v hv).mono hle⟩

theorem Drawn.withValue (drawn : w.Drawn) {v : Value} {next : Identity} (hle : w.next ≤ next)
    (hv : v.Drawn next) : (w.withValue v next).Drawn :=
  ⟨fun t ht => (drawn.tables t ht).mono hle,
    List.forall_mem_cons.mpr ⟨hv, fun u hu => (drawn.values u hu).mono hle⟩⟩

/-- The step: whatever is made anew has identities below the counter after it. -/
theorem Step.drawn (step : Step w w') (drawn : w.Drawn) : w'.Drawn := by
  cases step with
  | empty => exact drawn.withTable le_rfl (.empty w.next)
  | primitive h => exact drawn.withValue le_rfl (.primitive h)
  | set ht hk hv =>
    exact drawn.withTable le_rfl ((drawn.tables _ ht).set (drawn.values _ hk) (drawn.values _ hv))
  | setHost ht run =>
    obtain ⟨hle, ht'⟩ := (drawn.tables _ ht).setHost _ _ _ _ _ run
    exact drawn.withTable hle ht'
  | liftValue run =>
    obtain ⟨hle, hv⟩ := Host.draws_liftValue _ _ _ _ _ run
    exact drawn.withValue hle hv
  | liftTable run =>
    obtain ⟨hle, ht⟩ := Host.draws_liftTable _ _ _ _ _ run
    exact drawn.withTable hle ht
  | wrap ht => exact drawn.withValue (Nat.le_succ _) (drawn.tables _ ht).wrap
  | copy ht => exact drawn.withTable le_rfl (drawn.values _ ht).opened.2
  | read ht hv => exact drawn.withValue le_rfl ((drawn.tables _ ht).contents _ hv)

/-- The run. -/
theorem Reached.drawn (reached : w.Reached) : w.Drawn := by
  induction reached with
  | refl => exact drawn_start
  | tail _ step ih => exact step.drawn ih

theorem Present.drawn {v : Value} (present : w.Present v) (drawn : w.Drawn) : v.Drawn w.next := by
  induction present with
  | primitive h => exact .primitive h
  | held h => exact drawn.values _ h
  | stored ht hv => exact (drawn.tables _ ht).contents _ hv
  | inside _ hv ih => exact ih.opened.2.contents _ hv

/-- Written from the host under a composite key, whatever has been written before, a value gets an
entry of its own at the end of the fallback partition, under the table that the key becomes. The
ordered partitions stay as they are, each fallback key is a table of an identity of its own, and of
everything there was before the same is found. -/
theorem setHost_composite_key (reached : w.Reached) {t : Table Value} (ht : t ∈ w.tables)
    {key : Host} (composite : key.decompose.isComposite = true) {value : Host} {limit : Nat}
    {t' : Table Value} {next : Identity}
    (run : t.setHost limit key value w.next = .ok (t', next)) :
    t'.ordered = t.ordered ∧
    t'.fallback.size = t.fallback.size + 1 ∧
    t'.fallback.identities.length = t'.fallback.size ∧ t'.fallback.identities.Nodup ∧
    (∀ v, w.Present v → t'.get? v = t.get? v) ∧
    ∃ k v, k.forget = key.image ∧ v.forget = value.image ∧
      t'.fallback.entries = t.fallback.entries ++ [(k, v)] ∧ t'.get? k = some v := by
  have drawn := reached.drawn.tables t ht
  obtain ⟨k, v, middle, hkey, hvalue, rfl⟩ := Table.setHost_cases run
  obtain ⟨i, u, rfl, fresh⟩ := Host.fresh_of_composite composite hkey
  have wf := drawn.wf.set (.table i u) v
  refine ⟨Table.ordered_set_table t v rfl, drawn.size_set_fresh fresh u v,
    wf.fallback.length_identities, wf.fallback.distinct, ?_, .table i u, v,
    Host.forget_of_liftValue hkey, Host.forget_of_liftValue hvalue, ?_, ?_⟩
  · intro j present
    exact drawn.get?_set_fresh fresh u v (present.drawn reached.drawn)
  · exact drawn.wf.entriesIn_set_of_new (p := .fallback) nofun rfl (drawn.get?_fresh fresh u) v
  · rw [drawn.wf.get?_set, Value.sameKey, beq_self_eq_true, if_pos rfl]

/-- An empty sequence as the key twice. Of the table that it became first, the first value is found. -/
theorem setHost_composite_key_twice :
    let t := Table.empty.set (.table 0 .empty) (.integer 1)
    (Table.empty : Table Value).setHost 1 (.sequence []) (.integer 1) 0 = .ok (t, 1) ∧
    ∃ t', t.setHost 1 (.sequence []) (.integer 2) 1 = .ok (t', 2) ∧ t'.fallback.size = 2 ∧
      t'.fallback.identities.Nodup ∧ t'.get? (.table 0 .empty) = some (.integer 1) := by
  intro t
  have first : (Table.empty : Table Value).setHost 1 (.sequence []) (.integer 1) 0 = .ok (t, 1) := rfl
  have reached : Reached ⟨[t, .empty], [], 1⟩ :=
    (Relation.ReflTransGen.single .empty).tail (.setHost (.head _) first)
  have second : t.setHost 1 (.sequence []) (.integer 2) 1 =
      .ok (t.set (.table 1 .empty) (.integer 2), 2) := rfl
  obtain ⟨-, hsize, -, hnodup, hsame, -⟩ := setHost_composite_key reached (.head _) rfl second
  have hfallback : t.fallback = ⟨#[.table 0 .empty], #[.integer 1]⟩ := by
    simp [t, Table.set, Table.empty, Fallback.insert, Fallback.position?]
  have present : World.Present ⟨[t, .empty], [], 1⟩ (.table 0 .empty) :=
    .stored (.head _) (by simp [Table.contents, hfallback])
  have found : t.get? (.table 0 .empty) = some (.integer 1) := by
    simp [Table.get?, hfallback, Fallback.get?, Fallback.position?, Value.sameIdentity]
  rw [hfallback] at hsize
  exact ⟨first, _, second, hsize, hnodup, (hsame _ present).trans found⟩

end World

end ScriptTable
