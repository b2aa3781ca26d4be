import ScriptTable.Value

/-!
The text of a value. A table shows its traversable entries, in traversal order, and nothing of its
fallback entries.
-/

namespace ScriptTable

def joinEntries (entries : List String) : String :=
  "\x7b" ++ ", ".intercalate entries ++ "\x7d"

mutual

def Value.render : Value → String
  | .none => "nil"
  | .integer n => toString n
  | .float x => Double.display.write x
  | .boolean b => toString b
  | .text s => "\"" ++ s ++ "\""
  | .table _ t => t.render

def Table.render : Table Value → String
  | ⟨⟨intKeys, ⟨ints⟩⟩, ⟨floatKeys, _, ⟨floats⟩⟩, ⟨textKeys, _, ⟨texts⟩⟩,
      ⟨boolKeys, _, ⟨bools⟩⟩, _⟩ =>
    joinEntries
      (Value.renderEntries (intKeys.toList.map .integer) ints ++
        Value.renderEntries (floatKeys.toList.map .float) floats ++
        Value.renderEntries (textKeys.toList.map .text) texts ++
        Value.renderEntries (boolKeys.toList.map .boolean) bools)

def Value.renderEntries : List Key → List Value → List String
  | k :: ks, v :: vs => (k.render ++ ": " ++ v.render) :: Value.renderEntries ks vs
  | _, _ => []

end

theorem Key.render_toValue (k : Key) : k.toValue.render = k.render := by
  cases k <;> simp [Key.toValue, Value.render, Key.render]

end ScriptTable
