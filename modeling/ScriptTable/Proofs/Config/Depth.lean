import Mathlib.Data.List.Induction
import Mathlib.Data.List.TakeWhile
import Mathlib.Data.Nat.Digits.Defs
import ScriptTable.Config

/-!
Which texts write a depth, and which depth the environment asks for.
-/

namespace ScriptTable

namespace Text

theorem dropWhile_isBlank {blanks m : List Char} (hblanks : ∀ c ∈ blanks, isBlank c = true)
    (hm : ∀ c ∈ m, isBlank c = false) (hne : m ≠ []) (rest : List Char) :
    (blanks ++ (m ++ rest)).dropWhile isBlank = m ++ rest := by
  rw [List.dropWhile_append_of_pos hblanks]
  obtain ⟨c, m, rfl⟩ := List.exists_cons_of_ne_nil hne
  rw [List.cons_append, List.dropWhile_cons_of_neg (by simp [hm c List.mem_cons_self])]

/-- Trimming leaves a text that has no blanks and stands between blanks. -/
theorem trim_between {before m after : List Char} (hbefore : ∀ c ∈ before, isBlank c = true)
    (hafter : ∀ c ∈ after, isBlank c = true) (hm : ∀ c ∈ m, isBlank c = false) (hne : m ≠ []) :
    trim (before ++ m ++ after) = m := by
  have hback : (after.reverse ++ (m.reverse ++ [])).dropWhile isBlank = m.reverse ++ [] :=
    dropWhile_isBlank (by simpa using hafter) (by simpa using hm) (by simpa using hne) []
  rw [List.append_nil, ← List.reverse_append] at hback
  rw [trim, List.append_assoc, dropWhile_isBlank hbefore hm hne, hback, List.reverse_reverse]

/-- Trimming takes away blanks at both ends and nothing else. -/
theorem exists_trim (s : List Char) : ∃ before after, s = before ++ trim s ++ after ∧
    (∀ c ∈ before, isBlank c = true) ∧ ∀ c ∈ after, isBlank c = true := by
  let tail := (s.dropWhile isBlank).reverse
  refine ⟨s.takeWhile isBlank, (tail.takeWhile isBlank).reverse, ?_,
    fun c => List.mem_takeWhile_imp, fun c hc => List.mem_takeWhile_imp (List.mem_reverse.mp hc)⟩
  calc s = s.takeWhile isBlank ++ tail.reverse := by
        rw [List.reverse_reverse, List.takeWhile_append_dropWhile]
    _ = s.takeWhile isBlank ++ (trim s ++ (tail.takeWhile isBlank).reverse) := by
        rw [trim, ← List.reverse_append, List.takeWhile_append_dropWhile]
    _ = s.takeWhile isBlank ++ trim s ++ (tail.takeWhile isBlank).reverse :=
        (List.append_assoc _ _ _).symm

theorem not_isBlank_of_isDigit {c : Char} (h : c.isDigit = true) : isBlank c = false := by
  rw [Char.isDigit, Bool.and_eq_true, decide_eq_true_eq, decide_eq_true_eq, ge_iff_le,
    UInt32.le_iff_toNat_le, UInt32.le_iff_toNat_le] at h
  have hlow : 48 ≤ c.toNat := h.1
  have hhigh : c.toNat ≤ 57 := h.2
  simp only [isBlank, Bool.or_eq_false_iff, Bool.and_eq_false_iff, beq_eq_false_iff_ne,
    decide_eq_false_iff_not]
  omega

end Text

namespace Config

/-- The text is a number in decimal digits, at least one. -/
def WritesNumber (digits : List Char) (n : Nat) : Prop :=
  digits ≠ [] ∧ (∀ c ∈ digits, c.isDigit = true) ∧
    n = Nat.ofDigits 10 (digits.reverse.map fun c => c.toNat - 48)

/-- The text is a number of 64 bits, with at most one plus before its digits. -/
def WritesDepth (s : List Char) (n : Nat) : Prop :=
  ∃ digits, (s = digits ∨ s = '+' :: digits) ∧ WritesNumber digits n ∧ n < 0x10000000000000000

/-- Digits read from the left give their value in base ten. -/
theorem foldl_digits (digits : List Char) :
    digits.foldl (fun n c => 10 * n + (c.toNat - 48)) 0 =
      Nat.ofDigits 10 (digits.reverse.map fun c => c.toNat - 48) := by
  induction digits using List.reverseRecOn with
  | nil => rfl
  | append_singleton digits c ih =>
    rw [List.foldl_append, ih, List.reverse_concat, List.map_cons, Nat.ofDigits_cons,
      List.foldl_cons, List.foldl_nil, Nat.add_comm]

theorem depth?_plus (digits : List Char) (n : Nat) :
    depth? ('+' :: digits) = some n ↔ WritesNumber digits n ∧ n < 0x10000000000000000 := by
  simp only [depth?, foldl_digits, WritesNumber, List.all_eq_true, Option.ite_none_right_eq_some]
  grind

theorem depth?_of_head {s : List Char} (h : s.head? ≠ some '+') : depth? s = depth? ('+' :: s) := by
  unfold depth?
  split
  · contradiction
  · rfl

/-- A depth is read from exactly the texts that write one. -/
theorem depth?_eq_some_iff {s : List Char} {n : Nat} : depth? s = some n ↔ WritesDepth s n := by
  by_cases hplus : s.head? = some '+'
  · obtain ⟨rest, rfl⟩ := List.head?_eq_some_iff.mp hplus
    rw [depth?_plus]
    constructor
    · exact fun h => ⟨rest, .inr rfl, h⟩
    · rintro ⟨digits, rfl | hs, h⟩
      · cases h.1.2.1 '+' List.mem_cons_self
      · cases hs
        exact h
  · rw [depth?_of_head hplus, depth?_plus]
    constructor
    · exact fun h => ⟨s, .inl rfl, h⟩
    · rintro ⟨digits, rfl | rfl, h⟩
      · exact h
      · cases hplus rfl

instance (s : List Char) (n : Nat) : Decidable (WritesDepth s n) :=
  decidable_of_iff _ depth?_eq_some_iff

theorem WritesDepth.ne_nil {s : List Char} {n : Nat} (h : WritesDepth s n) : s ≠ [] := by
  obtain ⟨digits, rfl | rfl, h, -⟩ := h
  · exact h.1
  · exact List.cons_ne_nil _ _

theorem WritesDepth.not_isBlank {s : List Char} {n : Nat} (h : WritesDepth s n) :
    ∀ c ∈ s, Text.isBlank c = false := by
  obtain ⟨digits, hs, h, -⟩ := h
  have hdigits : ∀ c ∈ digits, Text.isBlank c = false :=
    fun c hc => Text.not_isBlank_of_isDigit (h.2.1 c hc)
  rcases hs with rfl | rfl
  · exact hdigits
  · exact List.forall_mem_cons.mpr ⟨by decide, hdigits⟩

/-- The text writes a depth between blanks. -/
def WritesPadded (s : List Char) (n : Nat) : Prop :=
  ∃ before m after, s = before ++ m ++ after ∧ (∀ c ∈ before, Text.isBlank c = true) ∧
    (∀ c ∈ after, Text.isBlank c = true) ∧ WritesDepth m n

theorem depth?_trim_eq_some_iff {s : List Char} {n : Nat} :
    depth? (Text.trim s) = some n ↔ WritesPadded s n := by
  rw [depth?_eq_some_iff]
  constructor
  · intro h
    obtain ⟨before, after, hs, hbefore, hafter⟩ := Text.exists_trim s
    exact ⟨before, _, after, hs, hbefore, hafter, h⟩
  · rintro ⟨before, m, after, rfl, hbefore, hafter, h⟩
    rwa [Text.trim_between hbefore hafter h.not_isBlank h.ne_nil]

/-- What the environment asks for: the depth that the variable writes between blanks, or else the
default. -/
def AskedFor (env : Option String) (n : Nat) : Prop :=
  (∃ s, env = some s ∧ WritesPadded s.toList n) ∨
    (∀ s, env = some s → ∀ m, ¬WritesPadded s.toList m) ∧ n = 128

theorem askedFor_ofEnvironment (env : Option String) :
    AskedFor env (ofEnvironment env).maxDepth := by
  rw [ofEnvironment]
  split
  next n hn =>
    obtain ⟨s, rfl, hs⟩ := Option.bind_eq_some_iff.mp hn
    exact .inl ⟨s, rfl, depth?_trim_eq_some_iff.mp hs⟩
  next hnone =>
    refine .inr ⟨?_, rfl⟩
    rintro s rfl m hm
    cases hnone.symm.trans (depth?_trim_eq_some_iff.mpr hm)

example : ofEnvironment (some "\t+9 ") = ⟨9⟩ ∧ ofEnvironment (some "9 9") = ⟨128⟩ := by decide

end Config

end ScriptTable
