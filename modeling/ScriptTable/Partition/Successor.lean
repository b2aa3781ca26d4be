/-!
The answer to "which key comes next?" in an ordered collection of keys.
-/

namespace ScriptTable

inductive Successor (K : Type) where
  /-- The key asked about is not there. -/
  | absent
  | last
  | next (k : K)
  deriving DecidableEq, Repr

namespace Successor

/-- The element after position `i`, which is taken to be inside `keys`. -/
def after (keys : Array K) (i : Nat) : Successor K :=
  match keys[i + 1]? with
  | some k => .next k
  | none => .last

def map (f : K → L) : Successor K → Successor L
  | .absent => .absent
  | .last => .last
  | .next k => .next (f k)

@[simp] theorem map_absent (f : K → L) : (absent : Successor K).map f = .absent := rfl
@[simp] theorem map_last (f : K → L) : (last : Successor K).map f = .last := rfl
@[simp] theorem map_next (f : K → L) (k : K) : (next k).map f = .next (f k) := rfl

end Successor

end ScriptTable
