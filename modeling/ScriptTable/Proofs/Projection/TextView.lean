import Mathlib.Logic.Relation
import ScriptTable.Proofs.Projection.Kept
import ScriptTable.Proofs.Value.Equivalence

/-!
What a projection sees. The text view of a table keeps the entries under text keys, in their order,
with floats bit for bit and the tables inside seen likewise. Tables with the same view are projected
alike and tables with different views are not, so of everything else a projection shows nothing, and
of the view it loses nothing.
-/

namespace ScriptTable

/-- What can be seen of a value. -/
inductive TextView where
  | none
  | integer (n : Int)
  | float (x : Double)
  | boolean (b : Bool)
  | text (s : String)
  | table (fields : List (String × TextView))

mutual

/-- A float that is not finite is seen as `none`. -/
def Value.textView : Value → TextView
  | .none => .none
  | .integer n => .integer n
  | .float x => if x.isFinite then .float x else .none
  | .boolean b => .boolean b
  | .text s => .text s
  | .table _ t => .table t.textView

def Table.textView : Table Value → List (String × TextView)
  | ⟨_, _, ⟨names, _, ⟨values⟩⟩, _, _⟩ => Value.viewFields names.toList values

def Value.viewFields : List String → List Value → List (String × TextView)
  | name :: names, v :: vs => (name, v.textView) :: Value.viewFields names vs
  | _, _ => []

end

theorem Table.textView_eq (t : Table Value) :
    t.textView = t.textEntries.map fun e => (e.1, e.2.textView) := by
  obtain ⟨integers, floats, ⟨names, index, ⟨values⟩⟩, booleans, fallback⟩ := t
  have hfields : ∀ (names : List String) (values : List Value),
      Value.viewFields names values = (names.zip values).map fun e => (e.1, e.2.textView) := by
    intro names values
    induction names generalizing values with
    | nil => simp [Value.viewFields]
    | cons name names ih =>
      cases values with
      | nil => simp [Value.viewFields]
      | cons v values => simp [Value.viewFields, ih]
  rw [textView, hfields]
  rfl

/-- Two functions that tell the same elements apart tell the same lists apart. -/
theorem map_eq_map_iff {α β γ : Type} {f : α → β} {g : α → γ} {l m : List α}
    (h : ∀ a ∈ l, ∀ b, f a = f b ↔ g a = g b) : l.map f = m.map f ↔ l.map g = m.map g := by
  induction l generalizing m with
  | nil => cases m <;> simp
  | cons a l ih =>
    rw [List.forall_mem_cons] at h
    cases m with
    | nil => simp
    | cons b m => simp [h.1 b, ih h.2]

/-- A projection tells values apart exactly where their views differ: no two kinds of value are
projected to one kind of document but for the floats that are seen as `none`. -/
theorem Value.toJson_eq_iff (v w : Value) : v.toJson = w.toJson ↔ v.textView = w.textView := by
  induction v using Value.induction generalizing w with
  | primitive v hv =>
    cases v with
    | table i t => cases hv
    | float x =>
      cases w <;> simp only [toJson, textView, Table.toJson_eq] <;> split <;> (try split) <;> simp
    | _ => cases w <;> simp only [toJson, textView, Table.toJson_eq] <;> (try split) <;> simp
  | table i t ih =>
    cases w with
    | table j u =>
      rw [toJson, toJson, textView, textView, t.toJson_eq, u.toJson_eq, t.textView_eq, u.textView_eq,
        Json.object.injEq, TextView.table.injEq]
      apply map_eq_map_iff
      rintro ⟨name, v⟩ hv ⟨name', w⟩
      have hvalue := ih v (Table.mem_contents_of_textEntries hv) w
      simp only [Prod.mk.injEq, hvalue]
    | float x =>
      simp only [toJson, textView, Table.toJson_eq]
      split <;> simp
    | _ => simp [toJson, textView, Table.toJson_eq]

/-- A write that replaces a value by one with the same image leaves the images of the entries. -/
theorem Inserted.map_eq {K V W : Type} [BEq K] [LawfulBEq K] {f : V → W} {k : K} {v old : V}
    {es es' : List (K × V)} (h : Inserted k v es es') (stored : es.lookup k = some old)
    (same : f v = f old) :
    (es'.map fun e => (e.1, f e.2)) = es.map fun e => (e.1, f e.2) := by
  cases h with
  | add pre post other =>
    rw [lookup_eq_none_of_not_mem other] at stored
    cases stored
  | replace pre post old' other =>
    rw [lookup_append_cons old' other, beq_self_eq_true, if_pos rfl, Option.some.injEq] at stored
    simp [stored, same]

def Value.isText : Value → Bool
  | .text _ => true
  | _ => false

namespace Table

/-- Documents are equal exactly when views are. -/
theorem toJson_eq_iff (t u : Table Value) : t.toJson = u.toJson ↔ t.textView = u.textView := by
  have h := Value.toJson_eq_iff (.table 0 t) (.table 0 u)
  rwa [Value.toJson, Value.toJson, Value.textView, Value.textView, TextView.table.injEq] at h

theorem textEntries_set_of_not_text (t : Table Value) {k : Value} (h : k.isText = false)
    (v : Value) : (t.set k v).textEntries = t.textEntries := by
  cases k with
  | text s => cases h
  | _ => rfl

/-- A value that replaces one of the same view is not seen, whatever the key. -/
theorem WellFormed.textView_set_of_same {t : Table Value} (wf : t.WellFormed) {k v old : Value}
    (stored : t.get? k = some old) (same : v.textView = old.textView) :
    (t.set k v).textView = t.textView := by
  rw [textView_eq, textView_eq]
  by_cases h : k.isText = true
  · cases k with
    | text s =>
      have hlookup : t.textEntries.lookup s = some old := by
        rw [← stored]
        exact (wf.texts.get?_eq_lookup s).symm
      exact (wf.texts.inserted s v).map_eq hlookup same
    | _ => cases h
  · rw [t.textEntries_set_of_not_text (Bool.not_eq_true _ ▸ h)]

/-- What a lookup finds is stored. -/
theorem mem_contents_of_get? {t : Table Value} {k v : Value} (h : t.get? k = some v) :
    v ∈ t.contents := by
  have hordered : ∀ {K : Type} [BEq K] [Hashable K] [LawfulBEq K] {p : Ordered K Value} {a : K},
      p.get? a = some v → v ∈ p.values.toList := by
    intro K _ _ _ p a ha
    obtain ⟨i, -, hi⟩ := Option.bind_eq_some_iff.mp ha
    exact (Array.mem_of_getElem? hi).val
  simp only [contents, List.mem_append]
  cases k with
  | none => cases h
  | integer n =>
    rw [get?, Sorted.get?] at h
    split at h
    · simp [(Array.mem_of_getElem? h).val]
    · cases h
  | float x => simp [hordered h]
  | text s => simp [hordered h]
  | boolean b => simp [hordered h]
  | table i u =>
    obtain ⟨n, -, hn⟩ := Option.bind_eq_some_iff.mp h
    simp [(Array.mem_of_getElem? hn).val]

/-- One write that a projection must not see: under a key other than a text, or somewhere in a table
that is stored under any key. A changed table is written back in its place, and its identity is of
no importance. (A table that is itself a key is never written to.) -/
inductive Unseen : Table Value → Table Value → Prop where
  | here {t : Table Value} {k v : Value} (key : k.Reachable) (value : v.Reachable)
      (other : k.isText = false) : Unseen t (t.set k v)
  | inside {t w w' : Table Value} {k : Value} {i : Identity} (j : Identity) (key : k.Reachable)
      (stored : t.get? k = some (.table i w)) (write : Unseen w w') :
      Unseen t (t.set k (.table j w'))

/-- The step. -/
theorem Unseen.textView_eq {t u : Table Value} (h : t.Unseen u) (reachable : t.Reachable) :
    u.Reachable ∧ u.textView = t.textView := by
  induction h with
  | here key value other =>
    refine ⟨reachable.set key value, ?_⟩
    rw [Table.textView_eq, Table.textView_eq, textEntries_set_of_not_text _ other]
  | @inside t w w' k i j key stored write ih =>
    have hmem := mem_contents_of_get? stored
    obtain ⟨hreachable, hview⟩ : w'.Reachable ∧ w'.textView = w.textView := by
      cases reachable.contents _ hmem with
      | table i hw => exact ih hw
    refine ⟨reachable.set key (.table j hreachable), ?_⟩
    apply reachable.wellFormed.textView_set_of_same stored
    rw [Value.textView, Value.textView, hview]

/-- The run: no number of such writes is seen. -/
theorem textView_eq_of_unseen {t u : Table Value} (reachable : t.Reachable)
    (h : Relation.ReflTransGen Unseen t u) : u.Reachable ∧ u.textView = t.textView := by
  induction h with
  | refl => exact ⟨reachable, rfl⟩
  | tail _ hwrite ih =>
    obtain ⟨hreachable, hview⟩ := hwrite.textView_eq ih.1
    exact ⟨hreachable, hview.trans ih.2⟩

theorem project_eq_of_toJson {t u : Table Value} (h : t.toJson = u.toJson) {α : Type}
    (target : Target α) : t.project target = u.project target := by
  rw [project, project, h]

/-- A projection sees the text view and nothing else: documents are equal exactly when views are,
and so are the results of reading tables into a target, errors included, taken over all targets.
Writes under other keys, in the table or in one inside, therefore change neither. -/
theorem projection_sees_textView :
    (∀ t u : Table Value, t.toJson = u.toJson ↔ t.textView = u.textView) ∧
    (∀ t u : Table Value, t.Reachable → Relation.ReflTransGen Unseen t u →
      u.textView = t.textView ∧ u.toJson = t.toJson ∧
        ∀ {α : Type} (target : Target α), u.project target = t.project target) ∧
    (∀ t u : Table Value, (∀ {α : Type} (target : Target α), t.project target = u.project target) ↔
      t.textView = u.textView) := by
  refine ⟨toJson_eq_iff, ?_, ?_⟩
  · intro t u reachable h
    have hview := (textView_eq_of_unseen reachable h).2
    have hjson := (toJson_eq_iff u t).mpr hview
    exact ⟨hview, hjson, project_eq_of_toJson hjson⟩
  · intro t u
    rw [← toJson_eq_iff]
    constructor
    · intro h
      exact Except.ok.inj (h (α := Json) ⟨"", .ok⟩)
    · intro h α target
      exact project_eq_of_toJson h target

/-- A write under a table, and one under a truth value inside the table of a text. The NaN in there
is seen as `none`. -/
theorem projection_of_unseen_writes :
    let inner := ofTexts [("b", .float .nan)]
    let t := ofTexts [("a", .table 1 inner)]
    let u := (t.set (.table 5 inner) .none).set (.text "a")
      (.table 2 (inner.set (.boolean true) (.integer 3)))
    u.toJson = t.toJson ∧ t.toJson = (ofTexts [("a", .table 4 (ofTexts [("b", .none)]))]).toJson := by
  intro inner t u
  have hinner : inner.Reachable := .ofTexts (List.forall_mem_singleton.mpr (.float _))
  have ht : t.Reachable := .ofTexts (List.forall_mem_singleton.mpr (.table 1 hinner))
  have hstored : (t.set (.table 5 inner) .none).get? (.text "a") = some (.table 1 inner) := by
    have hlookup : t.textEntries.lookup "a" = some (.table 1 inner) := by
      simp [t, textEntries_ofTexts]
    exact (ht.wellFormed.texts.get?_eq_lookup "a").trans hlookup
  have hwrites : Relation.ReflTransGen Unseen t u :=
    (Relation.ReflTransGen.single (.here (.table 5 hinner) .none rfl)).tail
      (.inside 2 (.text "a") hstored (.here (.boolean true) (.integer rfl) rfl))
  refine ⟨(projection_sees_textView.2.1 t u ht hwrites).2.1, (projection_sees_textView.1 _ _).mpr ?_⟩
  have hnan : Double.nan.isFinite = false := by decide
  simp [t, inner, textView_eq, textEntries_ofTexts, Value.textView, hnan]

end Table

end ScriptTable
