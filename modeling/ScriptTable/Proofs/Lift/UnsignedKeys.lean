import Mathlib.Data.List.Dedup
import ScriptTable.Proofs.Double.Nearest
import ScriptTable.Proofs.Lift.Outcome
import ScriptTable.Proofs.Table.WriteOrder

/-!
Maps with unsigned keys of 64 bits. A key that 64 bits with a sign do not hold becomes the nearest
float, so two keys that large meet if they have the same nearest float; the entry handed over last
stays. No other keys meet, and a map loses entries exactly if two of its keys do.
-/

namespace ScriptTable

theorem length_eraseDups_eq_iff {α : Type} [DecidableEq α] (l : List α) :
    l.eraseDups.length = l.length ↔ l.Nodup := by
  have hperm : l.eraseDups.Perm l.dedup := by
    rw [List.perm_ext_iff_of_nodup (nodup_eraseDups l) l.nodup_dedup]
    simp [List.mem_eraseDups]
  rw [hperm.length_eq, ← List.dedup_eq_self]
  exact ⟨(List.dedup_sublist l).eq_of_length, fun h => by rw [h]⟩

namespace Table

theorem get?_forget (t : Table Value) {k : Value} {key : Key} (h : k.toKey? = some key) :
    t.forget.get? k = (t.get? k).map Value.forget := by
  rw [get?_of_toKey? _ h, get?_of_toKey? _ h, forget_eq_map, getKey?_map]

end Table

namespace Double

/-- The float of a number beyond the signed range is neither zero nor NaN. -/
theorem canonical_ofInt {n : Nat} (low : 0x8000000000000000 ≤ n)
    (high : n < 0x10000000000000000) : (ofInt n).canonical = ofInt n := by
  obtain ⟨-, hround⟩ := roundQuotient_bounds low high
  have hmagnitude : (ofInt n).magnitude = 1085 * Nat.pow 2 52 + roundQuotient n 2048 := by
    rw [ofInt_unsigned low high]
    apply magnitude_ofMagnitude
    change 1085 * 0x10000000000000 + _ < 0x8000000000000000
    omega
  have hlead : Nat.pow 2 52 = 0x10000000000000 := rfl
  have hzero : (ofInt n).isZero = false := by
    rw [isZero, hmagnitude, hlead, beq_eq_false_iff_ne]
    omega
  have hnan : (ofInt n).isNaN = false := by
    rw [isNaN, hmagnitude, infinityMagnitude, hlead, decide_eq_false_iff_not]
    omega
  rw [canonical, hzero, hnan]
  rfl

end Double

namespace Host

variable {α β : Type} [ToHost α] [ToHost β]

/-- A map, by the order in which it hands its entries over. -/
def ofEntries (order : List (α × β)) : Host := .map (order.map fun e => (toHost e.1, toHost e.2))

/-- Looking up a key, lifted, finds a value as it is lifted, identities forgotten. -/
def Finds (t : Table Value) (limit : Nat) (key value : Host) : Prop :=
  ∀ next, ∃ k v, key.liftValue limit next = .ok (k, next) ∧ t.get? k = some v ∧
    value.valueOutcome limit next = .ok v.forget

/-- No entry of the map is lost, and each is found under its key. -/
structure KeepsEvery [Ord α] (t : Table Value) (limit : Nat) (m : Std.TreeMap α β) : Prop where
  size : t.size = m.size
  lookups : ∀ (k : α) (x : β), m[k]? = some x → Finds t limit (toHost k) (toHost x)

section Lifted

variable {key : α → Key} (keyed : ∀ a : α, (toHost a : Host).image.toKey? = some (key a))
include keyed

theorem primitive_of_keyed (a : α) : (toHost a : Host).decompose.isComposite = false := by
  rw [← isTable_image]
  have hkey := keyed a
  cases himage : (toHost a : Host).image with
  | table i u =>
    rw [himage] at hkey
    cases hkey
  | _ => rfl

theorem imageEntries_of_keyed (order : List (α × β)) :
    imageEntries (order.map fun e => (toHost e.1, toHost e.2)) =
      order.map fun e => ((toHost e.1 : Host).image, (toHost e.2 : Host).image) := by
  induction order with
  | nil => rfl
  | cons e rest ih =>
    rw [List.map_cons, imageEntries, primitive_of_keyed keyed, if_neg (by decide), ih, List.map_cons]

variable {order : List (α × β)} {limit : Nat} {next next' : Identity} {t : Table Value}
  (lifted : (ofEntries order).liftTable limit next = .ok (t, next'))
include lifted

theorem forget_of_lifted :
    (ofEntries order).depth ≤ limit ∧ t.forget = .ofPairs (order.map fun e =>
      ((toHost e.1 : Host).image, (toHost e.2 : Host).image)) := by
  obtain ⟨u, n, hforget, hrun⟩ := lift_map (order.map fun e => (toHost e.1, toHost e.2)) next
  have htable : (ofEntries order).liftTable limit next = _ := hrun limit
  rw [lifted] at htable
  split at htable
  · rename_i within
    cases htable
    exact ⟨within, by rw [hforget, imageEntries_of_keyed keyed]⟩
  · cases htable

/-- The entries are as many as the keys that the map's keys become. -/
theorem size_of_lifted : t.size = ((order.map Prod.fst).map key).eraseDups.length := by
  obtain ⟨-, hforget⟩ := forget_of_lifted keyed lifted
  have hsize : t.size = t.forget.size := by rw [Table.forget_eq_map, Table.size_map]
  rw [hsize, hforget, Table.size_ofPairs, List.filterMap_map, List.map_map,
    ← List.filterMap_eq_map]
  simp only [Function.comp_def, keyed]

/-- Of the entries whose keys become one, the last that is handed over is found. -/
theorem finds_of_lifted {pre post : List (α × β)} {k : α} {x : β}
    (split : order = pre ++ (k, x) :: post) (last : ∀ e ∈ post, key e.1 ≠ key k) {j : α}
    (same : key j = key k) : Finds t limit (toHost j) (toHost x) := by
  obtain ⟨within, hforget⟩ := forget_of_lifted keyed lifted
  have hdepth : (toHost x : Host).depth ≤ limit := by
    rw [ofEntries, depth] at within
    obtain ⟨-, hvalue⟩ := depthEntries_le_iff.mp (Nat.le_of_add_left_le within)
      (toHost k, toHost x) (by simp [split])
    exact hvalue (primitive_of_keyed keyed k)
  have hget : (t.get? (toHost j : Host).image).map Value.forget = some (toHost x : Host).image := by
    rw [← Table.get?_forget _ (keyed j), hforget, split, List.map_append, List.map_cons]
    apply Table.get?_ofPairs_of_split
    · rw [Value.sameKey_of_toKey? (keyed k) (keyed j), same, beq_self_eq_true]
    · rw [List.forall_mem_map]
      intro e he
      rw [Value.sameKey_of_toKey? (keyed e.1) (keyed j), same, beq_eq_false_iff_ne]
      exact (last e he).symm
  obtain ⟨v, hv, hforgets⟩ := Option.map_eq_some_iff.mp hget
  intro n
  exact ⟨_, v, (lift_primitive (toHost j) (primitive_of_keyed keyed j) limit n).2, hv,
    by rw [valueOutcome_eq, if_pos hdepth, hforgets]⟩

/-- A map is kept whole exactly if no two of its keys become one. -/
theorem keepsEvery_iff [Ord α] [Std.TransOrd α] [Std.LawfulEqOrd α] {m : Std.TreeMap α β}
    (perm : order.Perm m.toList) :
    KeepsEvery t limit m ↔ ∀ j ∈ m, ∀ k ∈ m, key j = key k → j = k := by
  have hkeys : (order.map Prod.fst).Perm m.keys := by
    rw [← Std.TreeMap.map_fst_toList_eq_keys]
    exact perm.map Prod.fst
  have hnodup : (order.map Prod.fst).Nodup := hkeys.nodup_iff.mpr m.nodup_keys
  have hlength : m.size = ((order.map Prod.fst).map key).length := by
    rw [List.length_map, hkeys.length_eq, Std.TreeMap.length_keys]
  have hapart : t.size = m.size ↔ ∀ j ∈ m, ∀ k ∈ m, key j = key k → j = k := by
    rw [size_of_lifted keyed lifted, hlength, length_eraseDups_eq_iff,
      List.nodup_map_iff_inj_on hnodup]
    simp only [hkeys.mem_iff, Std.TreeMap.mem_keys]
  refine ⟨fun keeps => hapart.mp keeps.size, fun apart => ⟨hapart.mpr apart, ?_⟩⟩
  intro k x hx
  have hmem : (k, x) ∈ order :=
    perm.mem_iff.mpr (Std.TreeMap.mem_toList_iff_getElem?_eq_some.mpr hx)
  have stored : ∀ e ∈ order, e.1 ∈ m := fun e he =>
    Std.TreeMap.mem_keys.mp (hkeys.mem_iff.mp (List.mem_map_of_mem he))
  obtain ⟨pre, post, hsplit⟩ := List.append_of_mem hmem
  refine finds_of_lifted keyed lifted hsplit ?_ rfl
  intro e he hsame
  rw [hsplit, List.map_append, List.map_cons, List.nodup_middle, List.nodup_cons] at hnodup
  have hek : e.1 = k := apart e.1 (stored e (by simp [hsplit, he])) k (stored _ hmem) hsame
  exact hnodup.1 (List.mem_append_right _ (List.mem_map.mpr ⟨e, he, hek⟩))

end Lifted

end Host

/-- The key of an unsigned number: itself, or the nearest float where it does not fit. -/
def Key.ofUnsigned (k : UInt64) : Key :=
  if Host.fitsInteger k.toNat then .integer k.toNat else .ofDouble (.ofInt k.toNat)

/-- Unsigned numbers that are one key: the same number, or two beyond the signed range with the same
nearest float. -/
def Meet (j k : UInt64) : Prop :=
  j = k ∨ 0x8000000000000000 ≤ j.toNat ∧ 0x8000000000000000 ≤ k.toNat ∧
    Double.ofInt j.toNat = Double.ofInt k.toNat

instance (j k : UInt64) : Decidable (Meet j k) := inferInstanceAs (Decidable (_ ∨ _))

theorem Host.fitsInteger_unsigned (k : UInt64) :
    fitsInteger k.toNat = true ↔ k.toNat < 0x8000000000000000 := by
  rw [fitsInteger, Bool.and_eq_true, decide_eq_true_eq, decide_eq_true_eq]
  omega

theorem Key.ofUnsigned_eq_iff (j k : UInt64) : ofUnsigned j = ofUnsigned k ↔ Meet j k := by
  have hsmall : ∀ n : UInt64, n.toNat < 0x8000000000000000 → ofUnsigned n = .integer n.toNat :=
    fun n h => if_pos ((Host.fitsInteger_unsigned n).mpr h)
  have hlarge : ∀ n : UInt64, ¬n.toNat < 0x8000000000000000 →
      ofUnsigned n = .ofDouble (.ofInt n.toNat) :=
    fun n h => if_neg (mt (Host.fitsInteger_unsigned n).mp h)
  have hequal : j = k ↔ j.toNat = k.toNat := UInt64.toNat_inj.symm
  rw [Meet, hequal]
  by_cases hj : j.toNat < 0x8000000000000000
  · rw [hsmall j hj]
    by_cases hk : k.toNat < 0x8000000000000000
    · rw [hsmall k hk, Key.integer.injEq]
      omega
    · rw [hlarge k hk]
      constructor
      · exact nofun
      · omega
  · rw [hlarge j hj]
    by_cases hk : k.toNat < 0x8000000000000000
    · rw [hsmall k hk]
      constructor
      · exact nofun
      · omega
    · -- both floats are canonical, so the keys are one exactly if the floats are
      have hfloats : ofDouble (.ofInt j.toNat) = ofDouble (.ofInt k.toNat) ↔
          Double.ofInt j.toNat = Double.ofInt k.toNat := by
        rw [ofDouble, ofDouble, Key.float.injEq, FloatKey.ext_iff, FloatKey.value_ofDouble,
          FloatKey.value_ofDouble, Double.canonical_ofInt (by omega) j.toNat_lt,
          Double.canonical_ofInt (by omega) k.toNat_lt]
      rw [hlarge k hk, hfloats]
      constructor
      · exact fun h => .inr ⟨by omega, by omega, h⟩
      · rintro (h | ⟨-, -, h⟩)
        · rw [h]
        · exact h

namespace Host

theorem toKey?_unsigned (k : UInt64) : (toHost k : Host).image.toKey? = some (.ofUnsigned k) := by
  change (ofInt k.toNat).image.toKey? = _
  rw [image_ofInt, Value.ofInt, Key.ofUnsigned]
  split <;> rfl

theorem exists_lifted_unsigned {β : Type} [ToHost β] (order : List (UInt64 × β)) (limit : Nat)
    (within : ∀ e ∈ order, (toHost e.2 : Host).depth ≤ limit) (next : Identity) :
    ∃ t next', (ofEntries order).liftTable (limit + 1) next = .ok (t, next') := by
  apply (liftTable_map_ok_iff limit _ next).mpr
  rw [List.forall_mem_map]
  intro e he
  rw [depth_of_primitive (primitive_of_keyed toKey?_unsigned e.1)]
  exact ⟨Nat.zero_le _, fun _ => within e he⟩

/-- The first number beyond the signed range and its neighbour have one nearest float, so a map with
both as keys loses an entry. -/
theorem not_keepsEvery_at_neighbours :
    let m : Std.TreeMap UInt64 String :=
      .ofList [((0x8000000000000000 : UInt64), "a"), (0x8000000000000001, "b")]
    ∃ t next', (toHost m : Host).liftTable 128 0 = .ok (t, next') ∧ ¬KeepsEvery t 128 m := by
  intro m
  obtain ⟨t, next', lifted⟩ := exists_lifted_unsigned m.toList 127 (fun _ _ => Nat.zero_le _) 0
  refine ⟨t, next', lifted, ?_⟩
  rw [keepsEvery_iff toKey?_unsigned lifted (.refl _)]
  intro apart
  have hfirst : (0x8000000000000000 : UInt64) ∈ m := Std.TreeMap.mem_ofList.mpr (by decide)
  have hsecond : (0x8000000000000001 : UInt64) ∈ m := Std.TreeMap.mem_ofList.mpr (by decide)
  have meet : Meet 0x8000000000000000 0x8000000000000001 := by decide
  exact absurd (apart _ hfirst _ hsecond ((Key.ofUnsigned_eq_iff _ _).mpr meet)) (by decide)

/-- The keys of a map from unsigned numbers become one only beyond the signed range, where they have
the same nearest float. There are as many entries as keys so told apart, and under each of them stands
what was handed over last. So all entries are kept exactly if no two keys of the map meet. -/
theorem lifted_unsigned_map {β : Type} [ToHost β] {m : Std.TreeMap UInt64 β}
    {order : List (UInt64 × β)} (perm : order.Perm m.toList) {limit : Nat} {next next' : Identity}
    {t : Table Value} (lifted : (ofEntries order).liftTable limit next = .ok (t, next')) :
    (∀ j k, Key.ofUnsigned j = Key.ofUnsigned k ↔ Meet j k) ∧
    t.size = ((order.map Prod.fst).map Key.ofUnsigned).eraseDups.length ∧
    (∀ pre k x post, order = pre ++ (k, x) :: post → (∀ e ∈ post, ¬Meet e.1 k) →
      ∀ j, Meet j k → Finds t limit (toHost j) (toHost x)) ∧
    (KeepsEvery t limit m ↔ ∀ j ∈ m, ∀ k ∈ m, Meet j k → j = k) := by
  refine ⟨Key.ofUnsigned_eq_iff, size_of_lifted toKey?_unsigned lifted, ?_, ?_⟩
  · intro pre k x post split last j meet
    rw [← Key.ofUnsigned_eq_iff] at meet
    refine finds_of_lifted toKey?_unsigned lifted split ?_ meet
    intro e he hsame
    exact last e he ((Key.ofUnsigned_eq_iff e.1 k).mp hsame)
  · rw [keepsEvery_iff toKey?_unsigned lifted perm]
    simp only [Key.ofUnsigned_eq_iff]

/-- The first number beyond the signed range and the first above it with another nearest float, handed
over from the last to the first. -/
theorem lifted_unsigned_map_at_border :
    let m : Std.TreeMap UInt64 String :=
      .ofList [((0x8000000000000000 : UInt64), "a"), (0x8000000000000401, "b")]
    ∃ t next', (ofEntries m.toList.reverse).liftTable 1 0 = .ok (t, next') ∧ KeepsEvery t 1 m := by
  intro m
  have perm : m.toList.reverse.Perm m.toList := List.reverse_perm _
  obtain ⟨t, next', lifted⟩ :=
    exists_lifted_unsigned m.toList.reverse 0 (fun _ _ => Nat.zero_le _) 0
  refine ⟨t, next', lifted, (lifted_unsigned_map perm lifted).2.2.2.mpr ?_⟩
  have hmem : ∀ k ∈ m, k = 0x8000000000000000 ∨ k = 0x8000000000000401 := by
    intro k hk
    simpa using Std.TreeMap.mem_ofList.mp hk
  intro j hj k hk meet
  rcases hmem j hj with rfl | rfl
  · rcases hmem k hk with rfl | rfl
    · rfl
    · exact absurd meet (by decide)
  · rcases hmem k hk with rfl | rfl
    · exact absurd meet (by decide)
    · rfl

end Host

end ScriptTable
