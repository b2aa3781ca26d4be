import ScriptTable.Record.Codec
import ScriptTable.Proofs.Projection.Kept

/-!
What is documented of codecs, as laws for any codecs of the types at hand: numbers, texts and truth
values are documents of their own, a float that is not finite is written as null, a list is no
object, and a record is written and read field by field. From the laws it follows what comes back of
a value when its document has been a table.
-/

namespace ScriptTable

namespace Codec

variable {α ρ : Type}

/-- The value is written as this document, and read from it. -/
structure Represents (c : Codec α) (a : α) (j : Json) : Prop where
  encode : c.encode a = .ok j
  decode : c.decode j = .ok a

def Refuses (c : Codec α) (j : Json) : Prop := ∃ e, c.decode j = .error e

/-- A field of a record, and how its values are written and read. -/
structure Member (ρ : Type) where
  {α : Type}
  name : String
  value : ρ → α
  codec : Codec α

/-- The members of a record's document, in the order in which the fields are declared. -/
def members (fields : List (Member ρ)) (js : List Json) : List (String × Json) :=
  (fields.map Member.name).zip js

/-- A record is written as the object of its fields. It is read from the members that its fields are
read from, and not at all when one of them is refused. -/
structure Derived (c : Codec ρ) (fields : List (Member ρ)) : Prop where
  encode : ∀ a js, List.Forall₂ (fun f j => f.codec.encode (f.value a) = .ok j) fields js →
    c.encode a = .ok (.object (members fields js))
  decode : ∀ a js, List.Forall₂ (fun f j => f.codec.decode j = .ok (f.value a)) fields js →
    c.decode (.object (members fields js)) = .ok a
  refuse : ∀ ms, (∃ f ∈ fields, ∃ j, ms.lookup f.name = some j ∧ f.codec.Refuses j) →
    c.Refuses (.object ms)

/-- The value is written as a document that can be lifted within so many levels. What a table keeps
of it is read as the same value if `p` holds, and otherwise refused. -/
structure ComesBack (c : Codec α) (a : α) (j : Json) (levels : Nat) (p : Prop) : Prop where
  written : c.encode a = .ok j
  regular : j.Regular levels
  same : p → c.decode j.kept = .ok a
  refused : ¬p → c.Refuses j.kept

namespace ComesBack

variable {c : Codec α} {a : α} {j : Json} {levels : Nat} {p q : Prop}

/-- A document of which everything is kept. -/
theorem of_represents (h : c.Represents a j) (regular : j.Regular levels) (kept : j.kept = j) :
    c.ComesBack a j levels True :=
  ⟨h.encode, regular, fun _ => kept.symm ▸ h.decode, fun hfalse => absurd trivial hfalse⟩

theorem congr (h : c.ComesBack a j levels p) (hpq : p ↔ q) : c.ComesBack a j levels q :=
  propext hpq ▸ h

end ComesBack

/-- The documents of a record's fields, and which of them are refused when not all come back. -/
theorem exists_documents {fields : List (Member ρ)} {a : ρ} {levels : Nat} {ps : List Prop}
    (h : List.Forall₂ (fun f p => ∃ j, f.codec.ComesBack (f.value a) j levels p) fields ps) :
    ∃ js, List.Forall₂ (fun f j => f.codec.encode (f.value a) = .ok j) fields js ∧
      (∀ j ∈ js, j.Regular levels) ∧
      (ps.Forall id →
        List.Forall₂ (fun f j => f.codec.decode j = .ok (f.value a)) fields (js.map Json.kept)) ∧
      (¬ps.Forall id → ∃ e ∈ fields.zip (js.map Json.kept), e.1.codec.Refuses e.2) := by
  induction h with
  | nil => exact ⟨[], .nil, by simp, fun _ => .nil, fun hnot => absurd trivial hnot⟩
  | @cons f p fields ps hf _ ih =>
    obtain ⟨j, hj⟩ := hf
    obtain ⟨js, hencode, hregular, hsame, hrefused⟩ := ih
    refine ⟨j :: js, .cons hj.written hencode, List.forall_mem_cons.mpr ⟨hj.regular, hregular⟩,
      fun hall => ?_, fun hnot => ?_⟩
    · rw [List.forall_cons] at hall
      exact .cons (hj.same hall.1) (hsame hall.2)
    · rw [List.forall_cons, not_and_or] at hnot
      rw [List.map_cons, List.zip_cons_cons]
      rcases hnot with hp | hps
      · exact ⟨_, List.mem_cons_self, hj.refused hp⟩
      · obtain ⟨e, he, hrefuses⟩ := hrefused hps
        exact ⟨e, List.mem_cons_of_mem _ he, hrefuses⟩

/-- What a table keeps of the members. -/
theorem members_kept (fields : List (Member ρ)) (js : List Json) :
    (members fields js).map (fun m => (m.1, m.2.kept)) = members fields (js.map Json.kept) := by
  rw [members, members, List.zip_map_right]
  rfl

theorem members_keys {fields : List (Member ρ)} {js : List Json} (h : fields.length = js.length) :
    (members fields js).map Prod.fst = fields.map Member.name :=
  List.map_fst_zip (by simp [h])

theorem mem_members {fields : List (Member ρ)} {js : List Json} {e : Member ρ × Json}
    (h : e ∈ fields.zip js) : (e.1.name, e.2) ∈ members fields js := by
  rw [members, List.zip_map_left]
  exact List.mem_map_of_mem h

/-- A record comes back when all its fields do. If the member of one is refused, so is the record. -/
theorem Derived.comesBack {c : Codec ρ} {fields : List (Member ρ)} (derived : c.Derived fields)
    (nodup : (fields.map Member.name).Nodup) {a : ρ} {levels : Nat} {ps : List Prop}
    (h : List.Forall₂ (fun f p => ∃ j, f.codec.ComesBack (f.value a) j levels p) fields ps) :
    ∃ ms, c.ComesBack a (.object ms) (levels + 1) (ps.Forall id) := by
  obtain ⟨js, hencode, hregular, hsame, hrefused⟩ := exists_documents h
  have hlength : fields.length = js.length := hencode.length_eq
  refine ⟨members fields js, derived.encode a js hencode, ?_, fun hall => ?_, fun hnot => ?_⟩
  · refine .object ((members_keys hlength).symm ▸ nodup) fun m hm => ?_
    exact hregular m.2 (List.of_mem_zip hm).2
  · rw [Json.kept_object, members_kept]
    exact derived.decode a _ (hsame hall)
  · rw [Json.kept_object, members_kept]
    obtain ⟨e, he, hrefuses⟩ := hrefused hnot
    have hkeys := members_keys (show fields.length = (js.map Json.kept).length by simp [hlength])
    exact derived.refuse _
      ⟨e.1, (List.of_mem_zip he).1, e.2, lookup_of_mem (hkeys ▸ nodup) (mem_members he), hrefuses⟩

end Codec

/-- Codecs of record types and of the types of their fields. -/
structure Codecs where
  int64 : Codec Int64
  uint32 : Codec UInt32
  uint64 : Codec UInt64
  double : Codec Double
  bool : Codec Bool
  text : Codec String
  list : Codec (List Int64)
  point : Codec Point
  segment : Codec Segment
  itemList : Codec ItemList
  user : Codec User
  customer : Codec Customer
  order : Codec Order

/-- The documented behaviour of the codecs. A whole number is not read from a float, a float not from
null and a list not from an object; records are written and read field by field. -/
structure Codecs.Lawful (c : Codecs) : Prop where
  int64 (n : Int64) : c.int64.Represents n (.int n.toInt)
  uint32 (n : UInt32) : c.uint32.Represents n (.int n.toNat)
  uint64 (n : UInt64) : c.uint64.Represents n (.int n.toNat)
  uint64_float (x : Double) : c.uint64.Refuses (.float x)
  double (x : Double) (finite : x.isFinite = true) : c.double.Represents x (.float x)
  double_null (x : Double) (infinite : x.isFinite = false) : c.double.encode x = .ok .null
  null_refused : c.double.Refuses .null
  bool (b : Bool) : c.bool.Represents b (.bool b)
  text (s : String) : c.text.Represents s (.text s)
  list (items : List Int64) (js : List Json)
    (h : List.Forall₂ (fun n j => c.int64.encode n = .ok j) items js) :
    c.list.encode items = .ok (.list js)
  object_refused (ms : List (String × Json)) : c.list.Refuses (.object ms)
  point : c.point.Derived [⟨"x", Point.x, c.int64⟩, ⟨"y", Point.y, c.double⟩]
  segment : c.segment.Derived [⟨"label", Segment.label, c.text⟩, ⟨"start", Segment.start, c.point⟩]
  itemList : c.itemList.Derived [⟨"items", ItemList.items, c.list⟩]
  user : c.user.Derived [⟨"name", User.name, c.text⟩, ⟨"age", User.age, c.uint32⟩]
  customer : c.customer.Derived
    [⟨"name", Customer.name, c.text⟩, ⟨"score", Customer.score, c.double⟩]
  order : c.order.Derived
    [⟨"id", Order.id, c.uint64⟩, ⟨"customer", Order.customer, c.customer⟩,
      ⟨"paid", Order.paid, c.bool⟩]

end ScriptTable
