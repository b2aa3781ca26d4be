import ScriptTable.Proofs.Record.Laws

/-!
The codecs by shape are lawful. A record's shape asks its fields about the members of an object one
after another, so a member that is refused is the end of it; when all are accepted, each field is
there to be read.
-/

namespace ScriptTable

namespace Json

theorem ofFields_of_nodup {fields : List (String × Json)} (nodup : (fields.map Prod.fst).Nodup) :
    ofFields fields = .object fields := by
  rw [ofFields]
  exact congrArg object (Ordered.entries_ofEntries nodup)

end Json

namespace Field

variable {checks : List Check} {strict : Bool} {ms : List (String × Json)}

theorem checkAll_ok
    (h : ∀ m ∈ ms, ∃ accepts, checks.lookup m.1 = some accepts ∧ accepts m.2 = .ok ()) :
    checkAll checks strict ms = .ok () := by
  induction ms with
  | nil => rfl
  | cons m ms ih =>
    rw [List.forall_mem_cons] at h
    obtain ⟨accepts, hlookup, haccepts⟩ := h.1
    rw [checkAll, hlookup]
    dsimp only
    rw [haccepts]
    exact ih h.2

/-- The error is about the member that is refused or one before it. -/
theorem checkAll_error {m : String × Json} (hm : m ∈ ms) {accepts : Json → Except DecodeError Unit}
    (hlookup : checks.lookup m.1 = some accepts) {e : DecodeError} (he : accepts m.2 = .error e) :
    ∃ e', checkAll checks strict ms = .error e' := by
  induction ms with
  | nil => cases hm
  | cons m' ms ih =>
    have hrest : ∀ first : Except DecodeError Unit, m ∈ ms →
        ∃ e', (first >>= fun _ => checkAll checks strict ms) = .error e' := by
      intro first hm
      cases first with
      | error e => exact ⟨e, rfl⟩
      | ok _ => exact ih hm
    rw [checkAll]
    rcases List.mem_cons.mp hm with rfl | hm
    · rw [hlookup]
      dsimp only
      rw [he]
      exact ⟨e, rfl⟩
    · split
      · exact hrest _ hm
      · split
        · exact hrest (throw _) hm
        · exact ih hm

end Field

/-- A field whose type has a shape, with the name that errors give the type. -/
structure Shaped (ρ : Type) where
  {α : Type}
  [shape : Shape α]
  name : String
  value : ρ → α
  type : String

namespace Shaped

variable {ρ : Type}

def datum (f : Shaped ρ) (a : ρ) : Datum := f.shape.encode (f.value a)
def field (f : Shaped ρ) : Field f.α := @Field.required f.α f.shape f.name
def check (f : Shaped ρ) : Field.Check := f.field.check
def codec (f : Shaped ρ) : Codec f.α := @Codec.ofShape f.α f.shape f.type
def member (f : Shaped ρ) : Codec.Member ρ := ⟨f.name, f.value, f.codec⟩

theorem check_ok {f : Shaped ρ} {a : f.α} {j : Json} (h : f.codec.decode j = .ok a) :
    f.check.2 j = .ok () := by
  change discard (f.codec.decode j) = _
  rw [h]
  rfl

theorem check_error {f : Shaped ρ} {j : Json} (h : f.codec.Refuses j) :
    ∃ e, f.check.2 j = .error e := by
  obtain ⟨e, he⟩ := h
  refine ⟨e, ?_⟩
  change discard (f.codec.decode j) = _
  rw [he]
  rfl

theorem read_eq {f : Shaped ρ} {ms : List (String × Json)} {j : Json}
    (h : ms.lookup f.name = some j) : f.field.read ms = f.codec.decode j := by
  have hname : ms.lookup f.field.name = some j := h
  rw [Field.read, hname]
  rfl

theorem fieldsToJson_eq {fields : List (Shaped ρ)} {a : ρ} {js : List Json}
    (h : List.Forall₂ (fun f j => (f.datum a).toJson = .ok j) fields js) :
    Datum.fieldsToJson (fields.map fun f => (f.name, f.datum a)) =
      .ok ((fields.map Shaped.name).zip js) := by
  induction h with
  | nil => rfl
  | cons hj _ ih =>
    rw [List.map_cons, Datum.fieldsToJson, hj, ih]
    rfl

variable {fields : List (Shaped ρ)} (nodup : (fields.map Shaped.name).Nodup) {a : ρ} {js : List Json}
include nodup

theorem lookup_check {f : Shaped ρ} (hf : f ∈ fields) :
    (fields.map check).lookup f.name = some f.check.2 := by
  have hnames : (fields.map check).map Prod.fst = fields.map Shaped.name := List.map_map
  exact lookup_of_mem (hnames ▸ nodup) (List.mem_map_of_mem hf)

theorem nodup_members (hlength : fields.length = js.length) :
    (((fields.map Shaped.name).zip js).map Prod.fst).Nodup := by
  rwa [List.map_fst_zip (by simp [hlength])]

/-- The document of a record has its fields in order. -/
theorem toJson_record (h : List.Forall₂ (fun f j => (f.datum a).toJson = .ok j) fields js) :
    (Datum.record (fields.map fun f => (f.name, f.datum a))).toJson =
      .ok (.object ((fields.map Shaped.name).zip js)) := by
  rw [Datum.toJson, fieldsToJson_eq h, ← Json.ofFields_of_nodup (nodup_members nodup h.length_eq)]
  rfl

/-- Members that the fields are read from are accepted, and the fields are there to be read. -/
theorem read_record (h : List.Forall₂ (fun f j => f.codec.decode j = .ok (f.value a)) fields js) :
    Field.checkAll (fields.map check) false ((fields.map Shaped.name).zip js) = .ok () ∧
      ∀ f ∈ fields, f.field.read ((fields.map Shaped.name).zip js) = .ok (f.value a) := by
  obtain ⟨hlength, hdecoded⟩ := List.forall₂_iff_zip.mp h
  have hmembers : (fields.map Shaped.name).zip js = (fields.zip js).map fun e => (e.1.name, e.2) :=
    List.zip_map_left
  constructor
  · apply Field.checkAll_ok
    intro m hm
    rw [hmembers] at hm
    obtain ⟨e, he, rfl⟩ := List.mem_map.mp hm
    exact ⟨_, lookup_check nodup (List.of_mem_zip he).1, check_ok (hdecoded he)⟩
  · intro f hf
    rw [← List.map_fst_zip hlength.le] at hf
    obtain ⟨e, he, rfl⟩ := List.mem_map.mp hf
    have hlookup : ((fields.map Shaped.name).zip js).lookup e.1.name = some e.2 :=
      lookup_of_mem (nodup_members nodup hlength) (hmembers ▸ List.mem_map_of_mem he)
    rw [read_eq hlookup, hdecoded he]

/-- A member that some field refuses is not passed. -/
theorem checkAll_refused {ms : List (String × Json)} {f : Shaped ρ} (hf : f ∈ fields) {j : Json}
    (hlookup : ms.lookup f.name = some j) (refuses : f.codec.Refuses j) :
    ∃ e, Field.checkAll (fields.map check) false ms = .error e := by
  obtain ⟨e, he⟩ := check_error refuses
  obtain ⟨before, after, rfl, -⟩ := List.lookup_eq_some_iff.mp hlookup
  have hmem : (f.name, j) ∈ before ++ (f.name, j) :: after :=
    List.mem_append_right before List.mem_cons_self
  exact Field.checkAll_error hmem (lookup_check nodup hf) he

end Shaped

namespace Codec

variable {ρ : Type}

/-- A record whose shape is that of its fields, all of them required. -/
theorem derived_ofShape [Shape ρ] (type wanted : String) (fields : List (Shaped ρ))
    (build : List (String × Json) → Except DecodeError ρ)
    (nodup : (fields.map Shaped.name).Nodup)
    (hencode : ∀ a : ρ, Shape.encode a = .record (fields.map fun f => (f.name, f.datum a)))
    (hdecode : ∀ j, (Shape.decode j : Except DecodeError ρ) =
      Field.members wanted (fields.map Shaped.check) false j >>= build)
    (hbuild : ∀ a ms, (∀ f ∈ fields, f.field.read ms = .ok (f.value a)) → build ms = .ok a) :
    (ofShape type).Derived (fields.map Shaped.member) := by
  have hmembers : ∀ js, members (fields.map Shaped.member) js = (fields.map Shaped.name).zip js := by
    intro js
    rw [members, List.map_map]
    rfl
  have hread : ∀ ms, (Shape.decode (.object ms) : Except DecodeError ρ) =
      Field.checkAll (fields.map Shaped.check) false ms >>= fun _ => build ms := by
    intro ms
    rw [hdecode, Field.members, bind_assoc]
    rfl
  constructor
  · intro a js h
    change (Shape.encode a).toJson = _
    rw [hencode, hmembers, Shaped.toJson_record nodup (List.forall₂_map_left_iff.mp h)]
  · intro a js h
    obtain ⟨hchecked, hfields⟩ := Shaped.read_record nodup (List.forall₂_map_left_iff.mp h)
    change Shape.decode _ = _
    rw [hread, hmembers, hchecked]
    exact hbuild a _ hfields
  · rintro ms ⟨_, hmember, j, hlookup, refuses⟩
    obtain ⟨f, hf, rfl⟩ := List.mem_map.mp hmember
    obtain ⟨e, he⟩ := Shaped.checkAll_refused nodup hf hlookup refuses
    refine ⟨e, ?_⟩
    change Shape.decode _ = _
    rw [hread, he]
    rfl

end Codec

theorem bind_ok {ε α β : Type} {x : Except ε α} {a : α} {k : α → Except ε β} {r : Except ε β}
    (h : x = .ok a) (hk : k a = r) : (x >>= k) = r := by
  rw [h]
  exact hk

namespace Codecs

/-- The codecs of the types by their shapes. -/
def shapes : Codecs where
  int64 := .ofShape "i64"
  uint32 := .ofShape "u32"
  uint64 := .ofShape "u64"
  double := .ofShape "f64"
  bool := .ofShape "bool"
  text := .ofShape "String"
  list := .ofShape "Vec<i64>"
  point := .ofShape "Point"
  segment := .ofShape "Segment"
  itemList := .ofShape "WithList"
  user := .ofShape "User"
  customer := .ofShape "Customer"
  order := .ofShape "Order"

theorem toJson_int {n : Int} (low : -0x8000000000000000 ≤ n) (high : n < 0x10000000000000000) :
    (Datum.int n).toJson = .ok (.int n) := by
  rw [Datum.toJson, if_pos ⟨low, high⟩]

theorem decodeInt_of_fits {low high n : Int} (hlow : low ≤ n) (hhigh : n < high) (wanted : String) :
    Shape.decodeInt low high wanted (.int n) = .ok n := by
  rw [Shape.decodeInt, if_pos ⟨hlow, hhigh⟩]

theorem represents_ofShape {α : Type} [Shape α] (type : String) {a : α} {j : Json}
    (hencode : (Shape.encode a).toJson = .ok j) (hdecode : Shape.decode j = .ok a) :
    (Codec.ofShape type).Represents a j := ⟨hencode, hdecode⟩

theorem represents_int64 (type : String) (n : Int64) :
    (Codec.ofShape type).Represents n (.int n.toInt) := by
  have hlow : -0x8000000000000000 ≤ n.toInt := n.le_toInt
  have hhigh : n.toInt < 0x8000000000000000 := n.toInt_lt
  refine represents_ofShape type (toJson_int hlow (by omega)) ?_
  change Int64.ofInt <$> Shape.decodeInt _ _ _ _ = _
  rw [decodeInt_of_fits hlow hhigh]
  exact congrArg Except.ok (Int64.ofInt_toInt n)

theorem represents_uint32 (type : String) (n : UInt32) :
    (Codec.ofShape type).Represents n (.int n.toNat) := by
  have hhigh := n.toNat_lt
  refine represents_ofShape type (toJson_int (by omega) (by omega)) ?_
  change (fun n : Int => UInt32.ofNat n.toNat) <$> Shape.decodeInt _ _ _ _ = _
  rw [decodeInt_of_fits (by omega) (by omega)]
  exact congrArg Except.ok (UInt32.ofNat_toNat)

theorem represents_uint64 (type : String) (n : UInt64) :
    (Codec.ofShape type).Represents n (.int n.toNat) := by
  have hhigh := n.toNat_lt
  refine represents_ofShape type (toJson_int (by omega) (by omega)) ?_
  change (fun n : Int => UInt64.ofNat n.toNat) <$> Shape.decodeInt _ _ _ _ = _
  rw [decodeInt_of_fits (by omega) (by omega)]
  exact congrArg Except.ok (UInt64.ofNat_toNat)

theorem itemsToJson_eq {items : List Int64} {js : List Json}
    (h : List.Forall₂ (fun n j => shapes.int64.encode n = .ok j) items js) :
    Datum.itemsToJson (items.map Shape.encode) = .ok js := by
  induction h with
  | nil => rfl
  | @cons n j _ _ hj _ ih =>
    change (Shape.encode n).toJson = .ok j at hj
    rw [List.map_cons, Datum.itemsToJson, hj, ih]
    rfl

theorem lawful_shapes : shapes.Lawful where
  int64 := represents_int64 "i64"
  uint32 := represents_uint32 "u32"
  uint64 := represents_uint64 "u64"
  uint64_float := fun x => ⟨.invalidType (.float x) "u64", rfl⟩
  double := fun x finite => ⟨congrArg Except.ok (if_pos finite), rfl⟩
  double_null := fun x infinite => congrArg Except.ok (if_neg (by simp [infinite]))
  null_refused := ⟨.invalidType .null "f64", rfl⟩
  bool := fun b => ⟨rfl, rfl⟩
  text := fun s => ⟨rfl, rfl⟩
  list := by
    intro items js h
    change Datum.toJson (.sequence (items.map Shape.encode)) = _
    rw [Datum.toJson, itemsToJson_eq h]
    rfl
  object_refused := fun ms => ⟨.invalidType (.object ms) "a sequence", rfl⟩
  point := by
    refine Codec.derived_ofShape "Point" "struct Point"
      [⟨"x", Point.x, "i64"⟩, ⟨"y", Point.y, "f64"⟩]
      _ (by decide) (fun _ => rfl) (fun _ => rfl) fun a ms h => ?_
    simp only [List.forall_mem_cons] at h
    exact bind_ok h.1 (bind_ok h.2.1 rfl)
  segment := by
    refine Codec.derived_ofShape "Segment" "struct Segment"
      [⟨"label", Segment.label, "String"⟩, ⟨"start", Segment.start, "Point"⟩]
      _ (by decide) (fun _ => rfl) (fun _ => rfl) fun a ms h => ?_
    simp only [List.forall_mem_cons] at h
    exact bind_ok h.1 (bind_ok h.2.1 rfl)
  itemList := by
    refine Codec.derived_ofShape "WithList" "struct WithList"
      [⟨"items", ItemList.items, "Vec<i64>"⟩]
      _ (by decide) (fun _ => rfl) (fun _ => rfl) fun a ms h => ?_
    simp only [List.forall_mem_cons] at h
    exact bind_ok h.1 rfl
  user := by
    refine Codec.derived_ofShape "User" "struct User"
      [⟨"name", User.name, "String"⟩, ⟨"age", User.age, "u32"⟩]
      _ (by decide) (fun _ => rfl) (fun _ => rfl) fun a ms h => ?_
    simp only [List.forall_mem_cons] at h
    exact bind_ok h.1 (bind_ok h.2.1 rfl)
  customer := by
    refine Codec.derived_ofShape "Customer" "struct Customer"
      [⟨"name", Customer.name, "String"⟩, ⟨"score", Customer.score, "f64"⟩]
      _ (by decide) (fun _ => rfl) (fun _ => rfl) fun a ms h => ?_
    simp only [List.forall_mem_cons] at h
    exact bind_ok h.1 (bind_ok h.2.1 rfl)
  order := by
    refine Codec.derived_ofShape "Order" "struct Order"
      [⟨"id", Order.id, "u64"⟩, ⟨"customer", Order.customer, "Customer"⟩,
        ⟨"paid", Order.paid, "bool"⟩]
      _ (by decide) (fun _ => rfl) (fun _ => rfl) fun a ms h => ?_
    simp only [List.forall_mem_cons] at h
    exact bind_ok h.1 (bind_ok h.2.1 (bind_ok h.2.2.1 rfl))

end Codecs

end ScriptTable
