import ScriptTable.CommandLine
import ScriptTable.Proofs.Lift.Orderly
import ScriptTable.Proofs.Value.Render

/-!
What the command answers to a document. The answer can be read off the document: identities do not
show, a primitive stands for a table of one item, and the walk over the keys meets no error.
-/

namespace ScriptTable

namespace Json

mutual

/-- The text of a document as a value. -/
def display : Json → String
  | .null => "nil"
  | .bool b => toString b
  | .int n => if Host.fitsInteger n then toString n else Double.display.write (.ofInt n)
  | .float x => Double.display.write x
  | .text s => "\"" ++ s ++ "\""
  | .list items => joinEntries (displayItems 1 items)
  | .object fields => joinEntries (displayFields fields)

/-- Items under successive whole numbers. -/
def displayItems (i : Int) : List Json → List String
  | [] => []
  | j :: rest => (toString i ++ ": " ++ j.display) :: displayItems (i + 1) rest

def displayFields : List (String × Json) → List String
  | [] => []
  | (name, j) :: rest => ("\"" ++ name ++ "\"" ++ ": " ++ j.display) :: displayFields rest

end

theorem displayFields_eq (fields : List (String × Json)) :
    displayFields fields = fields.map fun f => "\"" ++ f.1 ++ "\"" ++ ": " ++ f.2.display := by
  induction fields with
  | nil => rfl
  | cons f rest ih => rw [displayFields, ih, List.map_cons]

theorem displayItems_eq (i : Int) (items : List Json) :
    displayItems i items = ((Sorted.keysFrom i items.length).zip items).map
      fun e => toString e.1 ++ ": " ++ e.2.display := by
  induction items generalizing i with
  | nil => rfl
  | cons j rest ih =>
    rw [displayItems, ih, List.length_cons, Sorted.keysFrom_succ, List.zip_cons_cons,
      List.map_cons]

theorem render_image {j : Json} (distinct : j.every distinctNames = true) :
    j.image.render = j.display := by
  induction j using Json.induction with
  | primitive j hj =>
    cases j with
    | int n =>
      rw [image, Value.ofInt, display]
      split <;> rfl
    | list items => cases hj
    | object fields => cases hj
    | _ => rfl
  | list items ih =>
    rw [every_list_iff] at distinct
    rw [image_list, Value.render, Table.render_eq, Table.entries_positional, display,
      displayItems_eq, List.length_map, List.zip_map_right, List.map_map, List.map_map]
    congr 1
    apply List.map_congr_left
    rintro ⟨i, j⟩ h
    have hj := (List.of_mem_zip h).2
    exact congrArg (toString i ++ ": " ++ ·) (ih j hj (distinct.2 j hj))
  | object fields ih =>
    rw [every_object_iff] at distinct
    rw [image_object, Value.render, Table.render_eq,
      Table.entries_ofTexts (nodup_names distinct.1), display, displayFields_eq, List.map_map,
      List.map_map]
    congr 1
    apply List.map_congr_left
    intro f hf
    exact congrArg ("\"" ++ f.1 ++ "\"" ++ ": " ++ ·) (ih f hf (distinct.2 f hf))

end Json

namespace CommandLine

/-- The lines that a view prints of a document. A primitive stands for its only item. -/
def View.answer : View → Json → List String
  | .display, .list items => [(Json.list items).display]
  | .display, .object fields => [(Json.object fields).display]
  | .display, j => [joinEntries ["1: " ++ j.display]]
  | .list, .list items => items.map Json.display
  | .list, .object _ => []
  | .list, j => [j.display]
  | .keys, .list items => (List.range items.length).map fun i => toString (i + 1)
  | .keys, .object fields => fields.map fun f => "\"" ++ f.1 ++ "\""
  | .keys, _ => ["1"]

theorem View.answer_primitive (v : View) {j : Json} (h : j.isComposite = false) :
    v.answer j = v.answer (.list [j]) := by
  cases j with
  | list items => cases h
  | object fields => cases h
  | _ => cases v <;> rfl

/-- The lines that a view prints of a table. -/
def View.shown (v : View) (t : Table Value) : List String :=
  match v with
  | .display => [t.render]
  | .list => t.asList.map Value.render
  | .keys => t.keys.map Key.render

/-- No step of the walk fails, so the views always succeed. -/
theorem View.print_eq (v : View) {t : Table Value} (wf : t.WellFormed) :
    v.print t = ⟨0, lines (v.shown t), ""⟩ := by
  cases v with
  | display => rfl
  | list => rfl
  | keys =>
    rw [print, wf.walk_eq, shown]
    simp only [List.map_map]
    congr 3
    funext k
    exact k.render_toValue

theorem View.shown_forget (v : View) (t : Table Value) : v.shown t.forget = v.shown t := by
  cases v with
  | display => rw [shown, shown, t.render_forget]
  | list =>
    rw [shown, shown, t.asList_forget, List.map_map]
    exact List.map_congr_left fun w _ => w.render_forget
  | keys => rw [shown, shown, t.keys_forget]

theorem View.shown_positional (v : View) {items : List Json}
    (distinct : ∀ j ∈ items, j.every Json.distinctNames = true) :
    v.shown (.positional (items.map Json.image)) = v.answer (.list items) := by
  cases v with
  | display =>
    have hlist : (Json.list items).every Json.distinctNames = true :=
      Json.every_list_iff.mpr ⟨rfl, distinct⟩
    rw [shown, answer, ← Json.render_image hlist, Json.image_list]
    rfl
  | list =>
    rw [shown, answer, Table.asList, Table.positional, List.map_map]
    exact List.map_congr_left fun j hj => Json.render_image (distinct j hj)
  | keys =>
    rw [shown, answer, Table.keys_positional, List.length_map, Sorted.keysFrom, List.map_map,
      List.map_map]
    apply List.map_congr_left
    intro i _
    have hi : 1 + Int.ofNat i = Int.ofNat (i + 1) := Int.add_comm 1 i
    simp only [Function.comp_apply, hi]
    rfl

theorem View.shown_ofTexts (v : View) {fields : List (String × Json)}
    (distinct : (Json.object fields).every Json.distinctNames = true) :
    v.shown (.ofTexts (fields.map fun f => (f.1, f.2.image))) = v.answer (.object fields) := by
  cases v with
  | display =>
    rw [shown, answer, ← Json.render_image distinct, Json.image_object]
    rfl
  | list => rfl
  | keys =>
    have nodup := Json.nodup_names (Json.every_object_iff.mp distinct).1
    rw [shown, answer, Table.keys_ofTexts nodup, List.map_map, List.map_map]
    rfl

/-- Loading a text that parses is the conversion of the document. -/
theorem load_toUTF8 {parse : Json.Parser} (c : Config) (path : String) {text : String} {j : Json}
    (parsed : parse text = .ok j) :
    load parse c path (.ok text.toUTF8) = (tableOf c j).mapError .refused := by
  have hdecode : String.fromUTF8? text.toUTF8 = some text := dif_pos text.isValidUTF8
  have htext : decodeText path (.ok text.toUTF8) = .ok text := by
    simp only [decodeText, hdecode]
  rw [load, htext]
  change ((parse text).mapError (LoadError.malformed path) >>= _) = _
  rw [parsed]
  rfl

/-- A composite document within the limit gives its table, up to identities. -/
theorem tableOf_composite {j : Json} (composite : j.isComposite = true) :
    ∃ t : Table Value, (∀ u : Table Value, u.Inside t → u.WellFormed) ∧
      .table 0 t.forget = j.image ∧ ∀ limit,
      tableOf ⟨limit⟩ j = if j.nesting ≤ limit then .ok t else .error (.depthExceeded limit) := by
  have hdecompose := j.isComposite_decompose_ofJson.trans composite
  obtain ⟨t, next', himage, hlift⟩ := (Host.ofJson j).lift_composite hdecompose 0
  rw [Host.image_ofJson] at himage
  have horderly : (Value.table 0 t).Orderly j.nesting :=
    .of_forget (himage ▸ j.orderly_image : (Value.table 0 t.forget).Orderly j.nesting)
  refine ⟨t, fun u hu => (horderly.wellFormed_inside 0 t rfl u hu).1, himage, fun limit => ?_⟩
  rw [tableOf, (hlift limit).2, Host.depth_ofJson]
  by_cases hle : j.nesting ≤ limit
  · rw [if_pos hle, if_pos hle]
  · rw [if_neg hle, if_neg hle]

/-- A primitive gives the table of its only item at every limit. -/
theorem tableOf_primitive {j : Json} (primitive : j.isComposite = false) (limit : Nat) :
    tableOf ⟨limit⟩ j = .ok (.positional [j.image]) := by
  have hdecompose := j.isComposite_decompose_ofJson.trans primitive
  have hvalue : j.image.isTable = false := by
    rw [← Host.image_ofJson, Host.isTable_image, hdecompose]
  rw [tableOf, ((Host.ofJson j).lift_primitive hdecompose limit 0).2, Host.image_ofJson]
  generalize j.image = v at hvalue
  rw [← Table.ofList_eq_positional]
  cases v with
  | table i t => cases hvalue
  | _ => rfl

/-- A document within the limit gives a table, and every view of it shows the document if no object
has a name twice. -/
theorem tableOf_eq (j : Json) :
    ∃ t : Table Value, (∀ u : Table Value, u.Inside t → u.WellFormed) ∧
      (j.every Json.distinctNames = true → ∀ v : View, v.shown t = v.answer j) ∧ ∀ limit,
      tableOf ⟨limit⟩ j = if j.nesting ≤ limit then .ok t else .error (.depthExceeded limit) := by
  cases hj : j.isComposite with
  | false =>
    have horderly : (Value.table 0 (.positional [j.image])).Orderly (j.nesting + 1) :=
      .positional 0 (List.forall_mem_singleton.mpr j.orderly_image)
    refine ⟨.positional [j.image], fun u hu => (horderly.wellFormed_inside 0 _ rfl u hu).1,
      fun distinct v => ?_, fun limit => ?_⟩
    · have hitems : ∀ i ∈ [j], i.every Json.distinctNames = true :=
        List.forall_mem_singleton.mpr distinct
      rw [v.answer_primitive hj, ← v.shown_positional hitems]
      rfl
    · rw [tableOf_primitive hj, if_pos]
      rw [Json.nesting_of_primitive hj]
      exact Nat.zero_le limit
  | true =>
    obtain ⟨t, wf, himage, htable⟩ := tableOf_composite hj
    refine ⟨t, wf, fun distinct v => ?_, htable⟩
    rw [← v.shown_forget]
    cases j with
    | list items =>
      rw [Json.image_list] at himage
      rw [(Value.table.inj himage).2, v.shown_positional (Json.every_list_iff.mp distinct).2]
    | object fields =>
      rw [Json.image_object] at himage
      rw [(Value.table.inj himage).2, v.shown_ofTexts distinct]
    | _ => cases hj

end CommandLine

end ScriptTable
