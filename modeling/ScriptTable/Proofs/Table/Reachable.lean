import ScriptTable.Proofs.Table.Texts
import ScriptTable.Proofs.Table.WellFormed

/-!
Tables that a script can build. They come from the empty table by writes whose keys and values a
script can hold in turn, so everything stored in them, at any depth, is such a value again; whole
numbers have 64 bits with a sign.
-/

namespace ScriptTable

mutual

/-- Values that a script can hold. -/
inductive Value.Reachable : Value → Prop where
  | none : Value.Reachable .none
  | integer {n : Int} (h : Host.fitsInteger n = true) : Value.Reachable (.integer n)
  | float (x : Double) : Value.Reachable (.float x)
  | boolean (b : Bool) : Value.Reachable (.boolean b)
  | text (s : String) : Value.Reachable (.text s)
  | table (i : Identity) {t : Table Value} (h : Table.Reachable t) : Value.Reachable (.table i t)

/-- Tables that a script can build. -/
inductive Table.Reachable : Table Value → Prop where
  | empty : Table.Reachable .empty
  | set {t : Table Value} {k v : Value} (ht : Table.Reachable t) (hk : Value.Reachable k)
      (hv : Value.Reachable v) : Table.Reachable (t.set k v)

end

namespace Table.Reachable

/-- A write under a key is a write under the value of the key. -/
theorem setKey {t : Table Value} {k : Key} {v : Value} (ht : t.Reachable)
    (hk : k.toValue.Reachable) (hv : v.Reachable) : (t.setKey k v).Reachable := by
  rw [← set_toValue]
  exact ht.set hk hv

theorem wellFormed : ∀ {t : Table Value}, t.Reachable → t.WellFormed
  | _, .empty => wellFormed_empty
  | _, .set ht _ _ => ht.wellFormed.set _ _

/-- Whatever is stored is reachable in its own right. -/
theorem contents : ∀ {t : Table Value}, t.Reachable → ∀ v ∈ t.contents, v.Reachable
  | _, .empty => by simp
  | _, .set ht hk hv => by
    intro w hw
    rcases mem_contents_set hw with ⟨rfl, -⟩ | rfl | hw
    · exact hk
    · exact hv
    · exact ht.contents w hw

theorem ofTexts {es : List (String × Value)} (h : ∀ e ∈ es, e.2.Reachable) :
    (Table.ofTexts es).Reachable := by
  induction es using List.reverseRecOn with
  | nil => exact .empty
  | append_singleton es e ih =>
    rw [List.forall_mem_append, List.forall_mem_singleton] at h
    rw [Table.ofTexts, Ordered.ofEntries_concat]
    exact (ih h.1).set (.text e.1) h.2

end Table.Reachable

end ScriptTable
