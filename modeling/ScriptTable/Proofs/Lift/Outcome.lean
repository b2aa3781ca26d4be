import ScriptTable.Proofs.Lift.Composite

/-!
Conversions up to identities. What a host value is lifted to depends on nothing but its image, its
depth and the limit, so two conversions are compared by their outcomes, wherever their counters
start. The two ways to lift agree on every host value, except that a limit of 0 refuses a primitive
as too deep where a table is asked for, and lets it pass where a value is.
-/

namespace ScriptTable.Host

/-- What lifting to a value gives, identities forgotten. -/
def valueOutcome (limit : Nat) (h : Host) (next : Identity) : Except BridgeError Value :=
  (h.liftValue limit next).map fun r => r.1.forget

/-- What lifting to a table gives, identities forgotten. -/
def tableOutcome (limit : Nat) (h : Host) (next : Identity) : Except BridgeError (Table Value) :=
  (h.liftTable limit next).map fun r => r.1.forget

theorem valueOutcome_eq (limit : Nat) (h : Host) (next : Identity) :
    h.valueOutcome limit next =
      if h.depth ≤ limit then .ok h.image else .error (.depthExceeded limit) := by
  obtain ⟨v, next', hv, hrun⟩ := h.liftValue_eq next
  rw [valueOutcome, hrun, ← hv]
  split <;> rfl

theorem exists_image_eq_table {h : Host} (composite : h.decompose.isComposite = true) :
    ∃ t, h.image = .table 0 t := by
  obtain ⟨t, -, himage, -⟩ := h.lift_composite composite 0
  exact ⟨t.forget, himage.symm⟩

theorem tableOutcome_of_composite {h : Host} (composite : h.decompose.isComposite = true)
    {t : Table Value} (himage : h.image = .table 0 t) (limit : Nat) (next : Identity) :
    h.tableOutcome limit next =
      if h.depth ≤ limit then .ok t else .error (.depthExceeded limit) := by
  obtain ⟨u, next', hu, hrun⟩ := h.lift_composite composite next
  obtain ⟨-, rfl⟩ := Value.table.inj (hu.trans himage)
  rw [tableOutcome, (hrun limit).1]
  split <;> rfl

theorem tableOutcome_of_primitive {h : Host} (primitive : h.decompose.isComposite = false)
    (limit : Nat) (next : Identity) :
    h.tableOutcome limit next = .error
      (if limit = 0 then .depthExceeded 0 else .notComposite h.decompose.typeName) := by
  rw [tableOutcome, (h.lift_primitive primitive limit next).1]
  rfl

theorem tableOutcome_zero (h : Host) (next : Identity) :
    h.tableOutcome 0 next = .error (.depthExceeded 0) := by
  rw [tableOutcome, liftTable_zero]
  rfl

/-- The outcome for a table depends on the image, the depth and the name that a primitive has. -/
theorem tableOutcome_congr {h h' : Host} (image : h.image = h'.image) (depth : h.depth = h'.depth)
    (name : h.decompose.typeName = h'.decompose.typeName) (limit : Nat) (next next' : Identity) :
    h.tableOutcome limit next = h'.tableOutcome limit next' := by
  have hcomposite : h.decompose.isComposite = h'.decompose.isComposite := by
    rw [← h.isTable_image, ← h'.isTable_image, image]
  cases composite : h.decompose.isComposite with
  | true =>
    obtain ⟨t, ht⟩ := exists_image_eq_table composite
    rw [tableOutcome_of_composite composite ht,
      tableOutcome_of_composite (hcomposite ▸ composite) (image ▸ ht), depth]
  | false =>
    rw [tableOutcome_of_primitive composite, tableOutcome_of_primitive (hcomposite ▸ composite), name]

/-- The names of the host values that have no table form. -/
def primitiveNames : List String := ["Null", "Int", "Float", "Bool", "String"]

theorem typeName_mem_primitiveNames {h : Host} (primitive : h.isComposite = false) :
    h.typeName ∈ primitiveNames := by
  cases h with
  | sequence items => cases primitive
  | map entries => cases primitive
  | structured j => cases primitive
  | _ => simp [typeName, primitiveNames]

theorem depth_of_primitive {h : Host} (primitive : h.decompose.isComposite = false) :
    h.depth = 0 := by
  have hvalue := h.valueOutcome_eq 0 0
  rw [valueOutcome, (h.lift_primitive primitive 0 0).2] at hvalue
  by_contra hdepth
  rw [if_neg (by omega)] at hvalue
  cases hvalue

/-- Under this limit a table is given exactly where a value that is one is given, the same one;
a table is refused for a primitive exactly where the primitive passes through, by the name of that
primitive; and both ways refuse the same depths. -/
structure ConversionsAgree (h : Host) (limit : Nat) : Prop where
  tables : ∀ next next' t,
    h.tableOutcome limit next = .ok t ↔ h.valueOutcome limit next' = .ok (.table 0 t)
  primitives : ∀ next next' name,
    h.tableOutcome limit next = .error (.notComposite name) ↔
      name = h.decompose.typeName ∧ name ∈ primitiveNames ∧
        ∃ v, v.isTable = false ∧ h.valueOutcome limit next' = .ok v
  depths : ∀ next next' n,
    h.tableOutcome limit next = .error (.depthExceeded n) ↔
      h.valueOutcome limit next' = .error (.depthExceeded n)
  recoverable : ∀ next next',
    (∃ e, h.tableOutcome limit next = .error e ∧ e.isRecoverable = true) ↔
      ∃ v, v.isTable = false ∧ h.valueOutcome limit next' = .ok v

theorem conversionsAgree_of_composite {h : Host} (composite : h.decompose.isComposite = true)
    (limit : Nat) : h.ConversionsAgree limit := by
  obtain ⟨t, ht⟩ := exists_image_eq_table composite
  have htable := tableOutcome_of_composite composite ht limit
  have hvalue : ∀ next, h.valueOutcome limit next =
      if h.depth ≤ limit then .ok (.table 0 t) else .error (.depthExceeded limit) :=
    fun next => ht ▸ h.valueOutcome_eq limit next
  have never : ∀ next v, v.isTable = false → h.valueOutcome limit next ≠ .ok v := by
    intro next v hv
    rw [hvalue]
    split
    · rintro heq
      cases heq
      cases hv
    · exact nofun
  constructor
  · intro next next' u
    rw [htable, hvalue]
    split <;> simp
  · intro next next' name
    constructor
    · rw [htable]
      split <;> exact nofun
    · rintro ⟨-, -, v, hv, heq⟩
      exact absurd heq (never next' v hv)
  · intro next next' n
    rw [htable, hvalue]
    split <;> simp
  · intro next next'
    constructor
    · rintro ⟨e, he, hrecoverable⟩
      rw [htable] at he
      split at he <;> cases he
      cases hrecoverable
    · rintro ⟨v, hv, heq⟩
      exact absurd heq (never next' v hv)

theorem conversionsAgree_of_primitive {h : Host} (primitive : h.decompose.isComposite = false)
    {limit : Nat} (positive : 0 < limit) : h.ConversionsAgree limit := by
  have htable : ∀ next, h.tableOutcome limit next = .error (.notComposite h.decompose.typeName) := by
    intro next
    rw [tableOutcome_of_primitive primitive, if_neg (by omega)]
  have hvalue : ∀ next, h.valueOutcome limit next = .ok h.image := by
    intro next
    rw [valueOutcome_eq, depth_of_primitive primitive, if_pos (by omega)]
  have himage : h.image.isTable = false := by rw [h.isTable_image, primitive]
  constructor
  · intro next next' t
    rw [htable, hvalue]
    constructor
    · exact nofun
    · intro heq
      rw [Except.ok.injEq] at heq
      rw [heq] at himage
      cases himage
  · intro next next' name
    rw [htable]
    constructor
    · rintro heq
      cases heq
      exact ⟨rfl, typeName_mem_primitiveNames primitive, _, himage, hvalue next'⟩
    · rintro ⟨rfl, -, -⟩
      rfl
  · intro next next' n
    rw [htable, hvalue]
    exact ⟨nofun, nofun⟩
  · intro next next'
    exact ⟨fun _ => ⟨_, himage, hvalue next'⟩, fun _ => ⟨_, htable next, rfl⟩⟩

/-- A limit of 0 refuses a primitive as too deep, though it is not nested at all and passes through
where a value is asked for. -/
theorem not_conversionsAgree_at_zero : ¬(Host.integer 1).ConversionsAgree 0 := by
  intro agree
  have hvalue := (agree.depths 0 0 0).mp rfl
  cases hvalue

/-- Both ways to lift agree under every limit but 0, and under 0 on what is not a primitive; there
every table is refused for its depth. -/
theorem conversionsAgree_iff (h : Host) (limit : Nat) :
    (h.ConversionsAgree limit ↔ 0 < limit ∨ h.decompose.isComposite = true) ∧
      ∀ next, h.tableOutcome 0 next = .error (.depthExceeded 0) := by
  refine ⟨⟨?_, ?_⟩, h.tableOutcome_zero⟩
  · intro agree
    by_contra hneither
    rw [not_or, Nat.not_lt, Nat.le_zero, Bool.not_eq_true] at hneither
    obtain ⟨rfl, primitive⟩ := hneither
    have hvalue := (agree.depths 0 0 0).mp (h.tableOutcome_zero 0)
    rw [valueOutcome_eq, depth_of_primitive primitive, if_pos le_rfl] at hvalue
    cases hvalue
  · rintro (positive | composite)
    · cases composite : h.decompose.isComposite with
      | true => exact conversionsAgree_of_composite composite limit
      | false => exact conversionsAgree_of_primitive composite positive
    · exact conversionsAgree_of_composite composite limit

end ScriptTable.Host
