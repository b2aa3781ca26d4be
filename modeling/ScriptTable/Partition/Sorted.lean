import ScriptTable.Partition.Successor

/-!
Whole-number keys in ascending order, found by binary search. A key and its value stand at the
same position of two arrays. The keys of the program have 64 bits, but nothing is computed with
them, so they are plain integers here.
-/

namespace ScriptTable

structure Sorted (V : Type) where
  keys : Array Int
  values : Array V

/-- Where a key is, or where it has to go. -/
inductive Slot where
  | stored (i : Nat)
  | vacant (i : Nat)
  deriving DecidableEq, Repr

namespace Sorted

def empty : Sorted V := ⟨#[], #[]⟩

/-- The first position of the window from `lo` to `hi` whose key is not below `k`. Every key before
the window is below `k` and every key from its end on is not, and each probe keeps one half. -/
def lowerBound (keys : Array Int) (k : Int) (lo hi : Nat) (bound : hi ≤ keys.size) : Nat :=
  if _window : lo < hi then
    let mid := lo + (hi - lo) / 2
    have : mid < keys.size := by omega
    if keys[mid] < k then lowerBound keys k (mid + 1) hi bound
    else lowerBound keys k lo mid (by omega)
  else lo
termination_by hi - lo

def search (p : Sorted V) (k : Int) : Slot :=
  let i := lowerBound p.keys k 0 p.keys.size (Nat.le_refl _)
  if p.keys[i]? = some k then .stored i else .vacant i

/-- A stored key keeps its position and takes the new value; a new one shifts the keys above it. -/
def insert (p : Sorted V) (k : Int) (v : V) : Sorted V :=
  match p.search k with
  | .stored i => { p with values := p.values.setIfInBounds i v }
  | .vacant i => ⟨p.keys.insertIdxIfInBounds i k, p.values.insertIdxIfInBounds i v⟩

/-- Values under successive keys, from `k` on. -/
def insertFrom (p : Sorted V) (k : Int) : List V → Sorted V
  | [] => p
  | v :: vs => (p.insert k v).insertFrom (k + 1) vs

def get? (p : Sorted V) (k : Int) : Option V :=
  match p.search k with
  | .stored i => p.values[i]?
  | .vacant _ => none

def contains (p : Sorted V) (k : Int) : Bool :=
  match p.search k with
  | .stored _ => true
  | .vacant _ => false

def firstKey? (p : Sorted V) : Option Int := p.keys[0]?

def successor (p : Sorted V) (k : Int) : Successor Int :=
  match p.search k with
  | .stored i => .after p.keys i
  | .vacant _ => .absent

def size (p : Sorted V) : Nat := p.keys.size
def isEmpty (p : Sorted V) : Bool := p.keys.isEmpty

def entries (p : Sorted V) : List (Int × V) := p.keys.toList.zip p.values.toList

@[simp] theorem keys_empty : (empty : Sorted V).keys = #[] := rfl
@[simp] theorem values_empty : (empty : Sorted V).values = #[] := rfl
@[simp] theorem entries_empty : (empty : Sorted V).entries = [] := rfl
@[simp] theorem size_empty : (empty : Sorted V).size = 0 := rfl

@[simp] theorem insertFrom_nil (p : Sorted V) (k : Int) : p.insertFrom k [] = p := rfl
@[simp] theorem insertFrom_cons (p : Sorted V) (k : Int) (v : V) (vs : List V) :
    p.insertFrom k (v :: vs) = (p.insert k v).insertFrom (k + 1) vs := rfl

theorem isEmpty_iff_size_eq_zero (p : Sorted V) : p.isEmpty = true ↔ p.size = 0 := by
  simp [isEmpty, size]

end Sorted

end ScriptTable
