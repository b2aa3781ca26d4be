import Mathlib.Data.List.Forall2
import ScriptTable.Proofs.Table.Reachable

/-!
Structural equality is symmetric and transitive, and only a NaN among the stored values keeps a value
from being equal to itself. Two tables are equal when they have the same keys in the same order and
their values are equal in pairs; the laws come from that by induction on what is stored.
-/

namespace ScriptTable

namespace Double

theorem numEq_iff (x y : Double) : x.numEq y = true ↔
    x.isNaN = false ∧ y.isNaN = false ∧ (x = y ∨ (x.isZero = true ∧ y.isZero = true)) := by
  simp [numEq, and_assoc]

theorem numEq_symm {x y : Double} (h : x.numEq y = true) : y.numEq x = true := by
  rw [numEq_iff] at h ⊢
  obtain ⟨hx, hy, hxy⟩ := h
  exact ⟨hy, hx, hxy.imp Eq.symm And.symm⟩

theorem numEq_trans {x y z : Double} (hxy : x.numEq y = true) (hyz : y.numEq z = true) :
    x.numEq z = true := by
  rw [numEq_iff] at *
  obtain ⟨hx, -, hxy⟩ := hxy
  obtain ⟨-, hz, hyz⟩ := hyz
  refine ⟨hx, hz, ?_⟩
  rcases hxy with rfl | ⟨hx, hy⟩
  · exact hyz
  · rcases hyz with rfl | ⟨-, hz⟩
    · exact .inr ⟨hx, hy⟩
    · exact .inr ⟨hx, hz⟩

theorem numEq_self_iff (x : Double) : x.numEq x = true ↔ x.isNaN = false := by
  rw [numEq_iff]
  exact ⟨And.left, fun h => ⟨h, h, .inl rfl⟩⟩

end Double

@[elab_as_elim]
theorem Value.induction {P : Value → Prop} (primitive : ∀ v, v.isTable = false → P v)
    (table : ∀ i t, (∀ v ∈ t.contents, P v) → P (.table i t)) (v : Value) : P v := by
  have htable : ∀ (t : Table Value) (i : Identity), P (.table i t) := by
    intro t
    induction t using Table.induction with
    | step t ih =>
      intro i
      apply table
      intro v hv
      cases v with
      | table j u => exact ih j u hv j
      | _ => exact primitive _ rfl
  cases v with
  | table i t => exact htable t i
  | _ => exact primitive _ rfl

namespace Table

variable {V W X : Type}

/-- The values of one ordered partition, in the order of their keys. -/
def valuesOf (t : Table V) : Kind → List V
  | .integer => t.integers.values.toList
  | .float => t.floats.values.toList
  | .text => t.texts.values.toList
  | .boolean => t.booleans.values.toList

theorem mem_contents_iff {t : Table V} {v : V} : v ∈ t.contents ↔
    (∃ kd, v ∈ t.valuesOf kd) ∨ v ∈ t.fallback.keys.toList ∨ v ∈ t.fallback.values.toList := by
  have hkinds : (∃ kd, v ∈ t.valuesOf kd) ↔ v ∈ t.valuesOf .integer ∨ v ∈ t.valuesOf .float ∨
      v ∈ t.valuesOf .text ∨ v ∈ t.valuesOf .boolean := by
    constructor
    · rintro ⟨kd, h⟩
      cases kd <;> simp [h]
    · rintro (h | h | h | h) <;> exact ⟨_, h⟩
  rw [hkinds]
  simp only [contents, valuesOf, List.mem_append]
  tauto

/-- The same positions for the same keys. -/
def SameIndexes (t : Table V) (u : Table W) : Prop :=
  t.floats.index = u.floats.index ∧ t.texts.index = u.texts.index ∧
    t.booleans.index = u.booleans.index

theorem SameIndexes.symm {t : Table V} {u : Table W} (h : t.SameIndexes u) : u.SameIndexes t :=
  ⟨h.1.symm, h.2.1.symm, h.2.2.symm⟩

theorem SameIndexes.trans {t : Table V} {u : Table W} {s : Table X} (h : t.SameIndexes u)
    (h' : u.SameIndexes s) : t.SameIndexes s :=
  ⟨h.1.trans h'.1, h.2.1.trans h'.2.1, h.2.2.trans h'.2.2⟩

/-- The same keys in the same order, and values that are related in pairs. The keys of the fallback
partition are values too. -/
structure Matches (R : V → W → Prop) (t : Table V) (u : Table W) : Prop where
  keys : ∀ kd, t.keysOf kd = u.keysOf kd
  indexes : t.SameIndexes u
  values : ∀ kd, List.Forall₂ R (t.valuesOf kd) (u.valuesOf kd)
  fallbackKeys : List.Forall₂ R t.fallback.keys.toList u.fallback.keys.toList
  fallbackValues : List.Forall₂ R t.fallback.values.toList u.fallback.values.toList

theorem forall₂_comp {α β γ : Type} {R : α → β → Prop} {S : β → γ → Prop} {l : List α} {m : List β}
    {n : List γ} (h : List.Forall₂ R l m) (h' : List.Forall₂ S m n) :
    List.Forall₂ (fun a c => ∃ b, R a b ∧ S b c) l n := by
  induction h generalizing n with
  | nil =>
    cases h'
    exact .nil
  | cons hab _ ih =>
    cases h' with
    | cons hbc h' => exact .cons ⟨_, hab, hbc⟩ (ih h')

namespace Matches

variable {R S : V → W → Prop} {t : Table V} {u : Table W}

/-- Only what the left table stores has to be looked at. -/
theorem imp (h : t.Matches R u) (himp : ∀ v ∈ t.contents, ∀ w, R v w → S v w) : t.Matches S u := by
  have hlist : ∀ {l : List V} {m : List W}, (∀ v ∈ l, v ∈ t.contents) → List.Forall₂ R l m →
      List.Forall₂ S l m := by
    intro l m hl hR
    have hboth := (List.forall₂_and_left l m).mpr ⟨hl, hR⟩
    exact hboth.imp fun v w hv => himp v hv.1 w hv.2
  constructor
  · exact h.keys
  · exact h.indexes
  · exact fun kd => hlist (fun v hv => mem_contents_iff.mpr (.inl ⟨kd, hv⟩)) (h.values kd)
  · exact hlist (fun v hv => mem_contents_iff.mpr (.inr (.inl hv))) h.fallbackKeys
  · exact hlist (fun v hv => mem_contents_iff.mpr (.inr (.inr hv))) h.fallbackValues

theorem flip (h : t.Matches R u) : u.Matches (fun w v => R v w) t :=
  ⟨fun kd => (h.keys kd).symm, h.indexes.symm, fun kd => (h.values kd).flip,
    h.fallbackKeys.flip, h.fallbackValues.flip⟩

theorem comp {S : W → X → Prop} {s : Table X} (h : t.Matches R u) (h' : u.Matches S s) :
    t.Matches (fun v x => ∃ w, R v w ∧ S w x) s :=
  ⟨fun kd => (h.keys kd).trans (h'.keys kd), h.indexes.trans h'.indexes,
    fun kd => forall₂_comp (h.values kd) (h'.values kd),
    forall₂_comp h.fallbackKeys h'.fallbackKeys, forall₂_comp h.fallbackValues h'.fallbackValues⟩

end Matches

theorem matches_self_iff {R : V → V → Prop} {t : Table V} :
    t.Matches R t ↔ ∀ v ∈ t.contents, R v v := by
  constructor
  · intro h v hv
    rcases mem_contents_iff.mp hv with ⟨kd, hv⟩ | hv | hv
    · exact List.forall₂_same.mp (h.values kd) v hv
    · exact List.forall₂_same.mp h.fallbackKeys v hv
    · exact List.forall₂_same.mp h.fallbackValues v hv
  · intro h
    constructor
    · exact fun kd => rfl
    · exact ⟨rfl, rfl, rfl⟩
    · exact fun kd => List.forall₂_same.mpr fun v hv => h v (mem_contents_iff.mpr (.inl ⟨kd, hv⟩))
    · exact List.forall₂_same.mpr fun v hv => h v (mem_contents_iff.mpr (.inr (.inl hv)))
    · exact List.forall₂_same.mpr fun v hv => h v (mem_contents_iff.mpr (.inr (.inr hv)))

end Table

theorem Value.equivAll_iff {vs ws : List Value} : equivAll vs ws = true ↔
    List.Forall₂ (fun v w => v.equiv w = true) vs ws := by
  induction vs generalizing ws with
  | nil => cases ws <;> simp [equivAll]
  | cons v vs ih => cases ws <;> simp [equivAll, ih]

theorem Table.keysOf_eq_iff {V W : Type} {t : Table V} {u : Table W} :
    (∀ kd, t.keysOf kd = u.keysOf kd) ↔
      t.integers.keys = u.integers.keys ∧ t.floats.keys = u.floats.keys ∧
        t.texts.keys = u.texts.keys ∧ t.booleans.keys = u.booleans.keys := by
  constructor
  · intro h
    have hof : ∀ {K : Type} {f : K → Key} {ks js : Array K}, (∀ a b, f a = f b → a = b) →
        ks.toList.map f = js.toList.map f → ks = js := by
      intro K f ks js hf hmap
      exact Array.toList_inj.mp (List.map_injective_iff.mpr hf hmap)
    exact ⟨hof (fun a b => Key.integer.inj) (h .integer), hof (fun a b => Key.float.inj) (h .float),
      hof (fun a b => Key.text.inj) (h .text), hof (fun a b => Key.boolean.inj) (h .boolean)⟩
  · rintro ⟨hi, hf, ht, hb⟩ kd
    cases kd <;> simp [keysOf, hi, hf, ht, hb]

/-- Where the indexes are in step with the keys, to compare them tells nothing new. -/
theorem Table.WellFormed.sameIndexes {t u : Table Value} (wf : t.WellFormed) (wf' : u.WellFormed)
    (keys : ∀ kd, t.keysOf kd = u.keysOf kd) : t.SameIndexes u := by
  obtain ⟨-, hfloats, htexts, hbooleans⟩ := keysOf_eq_iff.mp keys
  exact ⟨wf.floats.index_eq wf'.floats hfloats, wf.texts.index_eq wf'.texts htexts,
    wf.booleans.index_eq wf'.booleans hbooleans⟩

theorem Table.equiv_iff {t u : Table Value} :
    t.equiv u = true ↔ t.Matches (fun v w => v.equiv w = true) u := by
  have hmatches : t.Matches (fun v w => v.equiv w = true) u ↔
      (∀ kd, t.keysOf kd = u.keysOf kd) ∧ t.SameIndexes u ∧
      (∀ kd, Value.equivAll (t.valuesOf kd) (u.valuesOf kd) = true) ∧
      Value.equivAll t.fallback.keys.toList u.fallback.keys.toList = true ∧
      Value.equivAll t.fallback.values.toList u.fallback.values.toList = true := by
    simp only [Value.equivAll_iff]
    exact ⟨fun h => ⟨h.keys, h.indexes, h.values, h.fallbackKeys, h.fallbackValues⟩,
      fun ⟨hkeys, hindexes, hvalues, hfallback⟩ =>
        ⟨hkeys, hindexes, hvalues, hfallback.1, hfallback.2⟩⟩
  have hkinds : ∀ p : Kind → Prop, (∀ kd, p kd) ↔
      p .integer ∧ p .float ∧ p .text ∧ p .boolean := by
    intro p
    exact ⟨fun h => ⟨h _, h _, h _, h _⟩, fun ⟨hi, hf, ht, hb⟩ kd => by cases kd <;> assumption⟩
  rw [hmatches, keysOf_eq_iff, hkinds]
  obtain ⟨⟨intKeys, ⟨ints⟩⟩, ⟨floatKeys, floatIndex, ⟨floats⟩⟩, ⟨textKeys, textIndex, ⟨texts⟩⟩,
    ⟨boolKeys, boolIndex, ⟨bools⟩⟩, ⟨⟨tableKeys⟩, ⟨tables⟩⟩⟩ := t
  simp only [equiv, valuesOf, SameIndexes, Bool.and_eq_true, beq_iff_eq]
  tauto

namespace Value

theorem equiv_primitive_iff {a b : Value} (ha : a.isTable = false) : a.equiv b = true ↔
    (∃ x y, a = .float x ∧ b = .float y ∧ x.numEq y = true) ∨ (a = b ∧ ∀ x, a ≠ .float x) := by
  cases a with
  | table i t => cases ha
  | _ => cases b <;> simp [equiv]

theorem equiv_symm {a b : Value} (h : a.equiv b = true) : b.equiv a = true := by
  induction a using Value.induction generalizing b with
  | primitive a ha =>
    rcases (equiv_primitive_iff ha).mp h with ⟨x, y, rfl, rfl, hxy⟩ | ⟨rfl, -⟩
    · exact Double.numEq_symm hxy
    · exact h
  | table i t ih =>
    cases b with
    | table j u =>
      rw [equiv, Table.equiv_iff] at h ⊢
      exact (h.imp fun v hv w => ih v hv).flip
    | _ => cases h

theorem equiv_trans {a b c : Value} (hab : a.equiv b = true) (hbc : b.equiv c = true) :
    a.equiv c = true := by
  induction a using Value.induction generalizing b c with
  | primitive a ha =>
    rcases (equiv_primitive_iff ha).mp hab with ⟨x, y, rfl, rfl, hxy⟩ | ⟨rfl, -⟩
    · rcases (equiv_primitive_iff rfl).mp hbc with ⟨y, z, hy, rfl, hyz⟩ | ⟨rfl, -⟩
      · cases hy
        exact Double.numEq_trans hxy hyz
      · exact hab
    · exact hbc
  | table i t ih =>
    cases b with
    | table j u =>
      cases c with
      | table k s =>
        rw [equiv, Table.equiv_iff] at hab hbc ⊢
        refine (hab.comp hbc).imp fun v hv x hx => ?_
        obtain ⟨w, hvw, hwx⟩ := hx
        exact ih v hv hvw hwx
      | _ => cases hbc
    | _ => cases hab

end Value

/-- No value stored anywhere in the table, in a fallback key or otherwise, is NaN. -/
def Table.FreeOfNaN (t : Table Value) : Prop :=
  ∀ u : Table Value, u.Inside t → ∀ x, Value.float x ∈ u.contents → x.isNaN = false

def Value.FreeOfNaN : Value → Prop
  | .float x => x.isNaN = false
  | .table _ t => t.FreeOfNaN
  | _ => True

theorem Table.freeOfNaN_iff {t : Table Value} :
    t.FreeOfNaN ↔ ∀ v ∈ t.contents, v.FreeOfNaN := by
  rw [FreeOfNaN, forall_inside_iff]
  constructor
  · rintro ⟨hfloats, htables⟩ v hv
    cases v with
    | float x => exact hfloats x hv
    | table i u => exact htables i u hv
    | _ => trivial
  · intro h
    exact ⟨fun x hx => h _ hx, fun i u hu => h _ hu⟩

theorem Value.equiv_self_iff {v : Value} : v.equiv v = true ↔ v.FreeOfNaN := by
  induction v using Value.induction with
  | primitive v hv =>
    cases v with
    | float x => exact x.numEq_self_iff
    | table i t => cases hv
    | _ => simp [equiv, FreeOfNaN]
  | table i t ih =>
    rw [equiv, Table.equiv_iff, Table.matches_self_iff, FreeOfNaN, Table.freeOfNaN_iff]
    exact forall₂_congr ih

namespace Table

theorem equiv_symm {t u : Table Value} (h : t.equiv u = true) : u.equiv t = true :=
  Value.equiv_symm (a := .table 0 t) (b := .table 0 u) h

theorem equiv_trans {t u s : Table Value} (htu : t.equiv u = true) (hus : u.equiv s = true) :
    t.equiv s = true :=
  Value.equiv_trans (a := .table 0 t) (b := .table 0 u) (c := .table 0 s) htu hus

theorem equiv_self_iff {t : Table Value} : t.equiv t = true ↔ t.FreeOfNaN :=
  Value.equiv_self_iff (v := .table 0 t)

theorem freeOfNaN_empty : (empty : Table Value).FreeOfNaN := freeOfNaN_iff.mpr (by simp)

/-- No key counts, so none does harm. -/
theorem FreeOfNaN.setKey {t : Table Value} (ht : t.FreeOfNaN) (k : Key) {v : Value}
    (hv : v.FreeOfNaN) : (t.setKey k v).FreeOfNaN := by
  rw [freeOfNaN_iff] at ht ⊢
  intro w hw
  rcases mem_contents_setKey hw with rfl | hw
  · exact hv
  · exact ht w hw

end Table

/-- Structural equality is a partial equivalence of values and of tables, and reflexive where no NaN
is stored. To be the same table is no help, and a key that is NaN does no harm. Equality compares the
indexes too, which in tables that a script can build are equal as soon as the keys are. -/
theorem equiv_partial_equivalence :
    (∀ a b : Value, a.equiv b = true → b.equiv a = true) ∧
    (∀ a b c : Value, a.equiv b = true → b.equiv c = true → a.equiv c = true) ∧
    (∀ a : Value, a.equiv a = true ↔ a.FreeOfNaN) ∧
    (∀ t u : Table Value, t.equiv u = true → u.equiv t = true) ∧
    (∀ t u s : Table Value, t.equiv u = true → u.equiv s = true → t.equiv s = true) ∧
    (∀ (i j : Identity) (t : Table Value),
      (Value.table i t).equiv (.table j t) = true ↔ t.FreeOfNaN) ∧
    (∀ (t : Table Value) (k : Key) (v : Value), t.equiv t = true → v.equiv v = true →
      (t.setKey k v).equiv (t.setKey k v) = true) ∧
    (∀ t u : Table Value, t.Reachable → u.Reachable → (∀ kd, t.keysOf kd = u.keysOf kd) →
      t.floats.index = u.floats.index ∧ t.texts.index = u.texts.index ∧
        t.booleans.index = u.booleans.index) := by
  refine ⟨fun _ _ => Value.equiv_symm, fun _ _ _ => Value.equiv_trans,
    fun _ => Value.equiv_self_iff, fun _ _ => Table.equiv_symm, fun _ _ _ => Table.equiv_trans,
    fun _ _ _ => Table.equiv_self_iff, ?_, fun _ _ ht hu => ht.wellFormed.sameIndexes hu.wellFormed⟩
  intro t k v ht hv
  rw [Table.equiv_self_iff] at ht ⊢
  exact ht.setKey k (Value.equiv_self_iff.mp hv)

/-- NaN as a key and NaN as a value; the zeros are equal values. -/
theorem equiv_under_nan :
    let zero := Value.float ⟨0x8000000000000000⟩
    let under (v : Value) := (Table.empty : Table Value).setKey (.ofDouble .nan) v
    zero.equiv (.float .zero) = true ∧ (Value.float .zero).equiv zero = true ∧
      (under zero).equiv (under zero) = true ∧
      (under (.float .nan)).equiv (under (.float .nan)) = false := by
  intro zero under
  obtain ⟨hsymm, -, hself, -, -, htable, hkey, -⟩ := equiv_partial_equivalence
  simp only [Value.equiv] at htable
  have hzero : zero.equiv (.float .zero) = true := by
    rw [Value.equiv]
    decide
  have hstored : Value.float .nan ∈ (under (.float .nan)).contents := by
    simp [under, Table.setKey, Key.ofDouble, Table.empty, Ordered.empty, Ordered.insert,
      Table.contents]
  have hempty := (htable 0 0 _).mpr Table.freeOfNaN_empty
  refine ⟨hzero, hsymm _ _ hzero, hkey _ _ _ hempty ((hself zero).mpr ?_), ?_⟩
  · change Double.isNaN _ = false
    decide
  · rw [← Bool.not_eq_true]
    intro h
    have hfree := Table.freeOfNaN_iff.mp ((htable 0 0 _).mp h) _ hstored
    exact absurd hfree (by decide : ¬Double.nan.isNaN = false)

end ScriptTable
