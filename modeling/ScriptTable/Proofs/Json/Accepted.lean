import ScriptTable.Json.Reader
import ScriptTable.Proofs.Json.Every
import ScriptTable.Proofs.Partition.Ordered

/-!
What a text that is accepted gives. In whatever the reader reads, a name stands once in its object,
numbers are those that a document can hold, and lists and objects are nested at most as deep as the
reader may go. That depth is reached.
-/

namespace ScriptTable.Json

theorem Regular.ofFields {fields : List (String × Json)} {levels : Nat}
    (h : ∀ f ∈ fields, f.2.Regular levels) : (ofFields fields).Regular (levels + 1) := by
  have wf := Ordered.wellFormed_ofEntries fields
  exact .object (wf.entries_keys ▸ wf.nodup) fun f hf => h f (Ordered.mem_of_mem_ofEntries hf)

namespace Reader

variable {α β : Type}

/-- Whatever is read satisfies `P`. -/
def Yields (m : Reader α) (P : α → Prop) : Prop := ∀ s r, m s = .ok r → P r.1

namespace Yields

variable {m : Reader α} {k : α → Reader β} {P : α → Prop} {Q : β → Prop}

theorem pure {a : α} (h : P a) : Yields (Pure.pure a) P := by
  rintro s r hr
  cases hr
  exact h

theorem bind (hm : Yields m P) (hk : ∀ a, P a → Yields (k a) Q) : Yields (m >>= k) Q := by
  intro s r hr
  change (m s >>= fun r => k r.1 r.2) = .ok r at hr
  cases hms : m s with
  | error e =>
    rw [hms] at hr
    cases hr
  | ok r' =>
    rw [hms] at hr
    exact hk r'.1 (hm s r' hms) r'.2 r hr

/-- What comes first has no part in it. -/
theorem after (hk : ∀ a, Yields (k a) Q) : Yields (m >>= k) Q :=
  bind (P := fun _ => True) (fun _ _ _ => trivial) fun a _ => hk a

theorem fail {f : Fault} : Yields (Reader.fail f) P := by
  rintro s r hr
  cases hr

theorem fail_bind {f : Fault} : Yields (Reader.fail f >>= k) Q := by
  rintro s r hr
  cases hr

theorem failBefore {f : Fault} : Yields (Reader.failBefore f) P := by
  rintro s r hr
  cases hr

theorem ite {c : Prop} [Decidable c] {m' : Reader α} (hm : c → Yields m P)
    (hm' : ¬c → Yields m' P) : Yields (if c then m else m') P := by
  split
  · exact hm ‹c›
  · exact hm' ‹¬c›

end Yields

theorem yields_literal (rest : List Char) {j : Json} {P : Json → Prop} (h : P j) :
    Yields (literal rest j) P :=
  .after fun _ => .pure h

/-- A whole number that 64 bits hold, or else a float unless it is infinite. -/
theorem yields_classified (negative plain : Bool) (n : Nat) (x : Double) (levels : Nat) :
    Yields
      (if plain && (if negative then 0 < n ∧ n ≤ 0x8000000000000000 else n < 0x10000000000000000)
        then Pure.pure (.int (if negative then -n else n))
        else if x.isFinite then Pure.pure (.float x) else failBefore .numberOutOfRange)
      (Regular · levels) := by
  refine .ite (fun hplain => .pure (.primitive rfl ?_ levels))
    fun _ => .ite (fun hfinite => .pure (.primitive (j := .float x) rfl hfinite levels))
      fun _ => .failBefore
  rw [Bool.and_eq_true] at hplain
  cases negative <;> simp [inRange] at hplain ⊢ <;> omega

theorem yields_number (negative : Bool) (levels : Nat) :
    Yields (number negative) (Regular · levels) := by
  rw [number]
  refine .after fun whole => .after fun next => ?_
  dsimp only
  split
  all_goals
    refine .after fun fraction => .after fun next => .ite (fun _ => ?_) fun _ => ?_
    · exact .after fun _ => .after fun e => yields_classified negative _ _ _ levels
    · exact .after fun e => yields_classified negative _ _ _ levels

/-- The items of a list are what the reader of an item gives. -/
theorem yields_items {P : Json → Prop} {item : Reader Json} (hitem : Yields item P)
    (fuel : List Char) {done : List Json} (hdone : ∀ j ∈ done, P j) :
    Yields (items item fuel done) fun js => ∀ j ∈ js, P j := by
  induction fuel generalizing done with
  | nil => exact .fail
  | cons c fuel ih =>
    have hrest : Yields (do items item fuel ((← item) :: done)) fun js => ∀ j ∈ js, P j :=
      .bind hitem fun j hj => ih (List.forall_mem_cons.mpr ⟨hj, hdone⟩)
    rw [items]
    refine .after fun _ => .after fun next => ?_
    split
    · exact .fail
    · refine .after fun _ => .pure ?_
      simpa using hdone
    · dsimp only
      split
      · split
        · exact .fail_bind
        · refine .after fun _ => .after fun _ => .after fun next => ?_
          split
          · exact .fail_bind
          · split
            · exact .fail_bind
            · exact hrest
      · exact hrest

theorem yields_field {P : Json → Prop} {item : Reader Json} (hitem : Yields item P) :
    Yields (field item) fun f => P f.2 := by
  have hrest (name : String) : Yields (do return (name, ← item)) fun f => P f.2 :=
    .bind hitem fun _ hj => .pure hj
  rw [field]
  refine .after fun name => .after fun _ => .after fun next => ?_
  split
  · exact .fail_bind
  · dsimp only
    split
    · exact .fail_bind
    · exact .after fun _ => hrest name

theorem yields_fields {P : Json → Prop} {item : Reader Json} (hitem : Yields item P)
    (fuel : List Char) {done : List (String × Json)} (hdone : ∀ f ∈ done, P f.2) :
    Yields (fields item fuel done) fun fs => ∀ f ∈ fs, P f.2 := by
  induction fuel generalizing done with
  | nil => exact .fail
  | cons c fuel ih =>
    have hrest : Yields (do fields item fuel ((← field item) :: done)) fun fs => ∀ f ∈ fs, P f.2 :=
      .bind (yields_field hitem) fun f hf => ih (List.forall_mem_cons.mpr ⟨hf, hdone⟩)
    rw [fields]
    refine .after fun _ => .after fun next => ?_
    split
    · exact .fail
    · refine .after fun _ => .pure ?_
      simpa using hdone
    · dsimp only
      split
      · split
        · exact .fail_bind
        · exact hrest
      · split
        · exact .fail_bind
        · refine .after fun _ => .after fun _ => .after fun next => ?_
          split
          · exact .fail_bind
          · split
            · exact .fail_bind
            · split
              · exact .fail_bind
              · exact hrest

theorem yields_valueWith {list object : Reader Json} {levels : Nat}
    (hlist : Yields list (Regular · levels)) (hobject : Yields object (Regular · levels)) :
    Yields (valueWith list object) (Regular · levels) := by
  rw [valueWith]
  refine .after fun _ => .after fun next => ?_
  split
  · exact .fail
  · exact .after fun _ => yields_literal _ (.primitive rfl rfl levels)
  · exact .after fun _ => yields_literal _ (.primitive rfl rfl levels)
  · exact .after fun _ => yields_literal _ (.primitive rfl rfl levels)
  · exact .after fun _ => yields_number true levels
  · exact .after fun s => .pure (.primitive rfl rfl levels)
  · exact hlist
  · exact hobject
  · split
    · exact yields_number false levels
    · exact .fail

theorem yields_value (depth : Nat) : Yields (value depth) (Regular · depth) := by
  induction depth with
  | zero => exact yields_valueWith .fail .fail
  | succ depth ih =>
    refine yields_valueWith ?_ ?_
    · refine .after fun _ => .after fun s => ?_
      exact .bind (yields_items ih s.rest (by simp)) fun js hjs => .pure (.list hjs)
    · refine .after fun _ => .after fun s => ?_
      exact .bind (yields_fields ih s.rest (by simp)) fun fs hfs => .pure (.ofFields hfs)

theorem yields_document : Yields document (Regular · maxNesting) := by
  rw [document]
  refine .bind (yields_value maxNesting) fun j hj => .after fun _ => .after fun next => ?_
  dsimp only
  split
  · exact .fail_bind
  · exact .pure hj

end Reader

/-- A text that is accepted gives a regular document, nested at most 127 deep. -/
theorem regular_of_read {s : String} {j : Json} (h : read s = .ok j) : j.Regular 127 := by
  rw [read] at h
  cases hrun : Reader.document.run (.start s) with
  | error e =>
    rw [hrun] at h
    cases h
  | ok r =>
    rw [hrun] at h
    cases h
    exact Reader.yields_document _ r hrun

theorem parse_of_read {s : String} {j : Json} (h : read s = .ok j) : parse s = .ok j := by
  rw [parse, h]
  rfl

theorem regular_of_parse {s : String} {j : Json} (h : parse s = .ok j) : j.Regular 127 := by
  rw [parse] at h
  cases hread : read s with
  | error e =>
    rw [hread] at h
    cases h
  | ok j' =>
    rw [hread] at h
    cases h
    exact regular_of_read hread

/-- A list within a list, `n` of them around the innermost. -/
def nested : Nat → Json
  | 0 => .list []
  | n + 1 => .list [nested n]

theorem nesting_nested (n : Nat) : (nested n).nesting = n + 1 := by
  induction n with
  | zero => rfl
  | succ n ih =>
    rw [nested, nesting, nestingAll, nestingAll, ih]
    omega

/-- The text of nested lists, before another one. -/
def brackets : Nat → List Char → List Char
  | 0, after => '[' :: ']' :: after
  | n + 1, after => '[' :: brackets n (']' :: after)

theorem brackets_eq (n : Nat) (after : List Char) :
    ∃ c rest, brackets n after = '[' :: c :: rest := by
  cases n with
  | zero => exact ⟨']', after, rfl⟩
  | succ n => cases n <;> exact ⟨_, _, rfl⟩

namespace Reader

theorem value_of_bracket (depth : Nat) (rest : List Char) (line column : Nat) :
    value (depth + 1) ⟨'[' :: rest, line, column⟩ = (do
      let r ← items (value depth) rest [] ⟨rest, line, column + 1⟩
      return (list r.1, r.2)) := rfl

theorem items_of_bracket (item : Reader Json) (c : Char) (fuel rest : List Char)
    (line column : Nat) :
    items item (c :: fuel) [] ⟨'[' :: rest, line, column⟩ = (do
      let r ← item ⟨'[' :: rest, line, column⟩
      items item fuel [r.1] r.2) := rfl

theorem items_at_end (item : Reader Json) (c : Char) (fuel : List Char) (done : List Json)
    (after : List Char) (line column : Nat) :
    items item (c :: fuel) done ⟨']' :: after, line, column⟩ =
      .ok (done.reverse, ⟨after, line, column + 1⟩) := rfl

theorem value_brackets {n depth : Nat} (h : n < depth) (after : List Char) (line column : Nat) :
    value depth ⟨brackets n after, line, column⟩ =
      .ok (nested n, ⟨after, line, column + 2 * (n + 1)⟩) := by
  obtain ⟨depth, rfl⟩ := Nat.exists_eq_add_one_of_ne_zero (Nat.ne_zero_of_lt h)
  induction n generalizing depth after column with
  | zero =>
    rw [brackets, value_of_bracket, items_at_end]
    rfl
  | succ n ih =>
    obtain ⟨depth, rfl⟩ := Nat.exists_eq_add_one_of_ne_zero (show depth ≠ 0 by omega)
    obtain ⟨c, rest, hrest⟩ := brackets_eq n (']' :: after)
    have hinner := ih (']' :: after) (column + 1) depth (by omega)
    have hitems : items (value (depth + 1)) (brackets n (']' :: after)) []
        ⟨brackets n (']' :: after), line, column + 1⟩ =
          .ok ([nested n], ⟨after, line, column + 1 + 2 * (n + 1) + 1⟩) := by
      rw [hrest, items_of_bracket, ← hrest, hinner]
      rfl
    rw [brackets, value_of_bracket, hitems]
    change Except.ok (nested (n + 1), Cursor.mk after line _) = _
    rw [show column + 1 + 2 * (n + 1) + 1 = column + 2 * (n + 1 + 1) by omega]

theorem value_brackets_refused {n depth : Nat} (h : depth ≤ n) (after : List Char)
    (line column : Nat) :
    value depth ⟨brackets n after, line, column⟩ =
      .error ⟨.tooDeep, line, column + (depth + 1)⟩ := by
  induction depth generalizing n after column with
  | zero =>
    obtain ⟨c, rest, hrest⟩ := brackets_eq n after
    rw [hrest]
    rfl
  | succ depth ih =>
    obtain ⟨n, rfl⟩ := Nat.exists_eq_add_one_of_ne_zero (show n ≠ 0 by omega)
    obtain ⟨c, rest, hrest⟩ := brackets_eq n (']' :: after)
    have hinner := ih (show depth ≤ n by omega) (']' :: after) (column + 1)
    rw [brackets, value_of_bracket, hrest, items_of_bracket, ← hrest, hinner]
    change Except.error _ = _
    congr 2
    omega

end Reader

/-- Lists are read up to 127 within one another, and the next one is refused where it opens. -/
theorem read_brackets (n : Nat) :
    read (String.ofList (brackets n [])) =
      if n < 127 then .ok (nested n) else .error ⟨.tooDeep, 1, 128⟩ := by
  have hstart : Cursor.start (String.ofList (brackets n [])) = ⟨brackets n [], 1, 0⟩ := by
    rw [Cursor.start, String.toList_ofList]
  rw [read, hstart]
  change ((do
    let r ← Reader.value 127 ⟨brackets n [], 1, 0⟩
    (do Reader.skipBlanks
        if (← Reader.peek).isSome then Reader.fail .trailingCharacters
        return r.1 : Reader Json) r.2).map _) = _
  by_cases h : n < 127
  · rw [if_pos h, Reader.value_brackets h]
    rfl
  · rw [if_neg h, Reader.value_brackets_refused (by omega)]
    rfl

end ScriptTable.Json
