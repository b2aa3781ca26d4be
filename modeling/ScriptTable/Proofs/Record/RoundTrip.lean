import ScriptTable.Proofs.Record.Lawful

/-!
Records written, lifted to a table and read back, by any lawful codecs. What a table does not keep of
a record's document (a number beyond the signed range, a float that is not finite, a list) is of a
type that the field refuses, so a record comes back the same or not at all, and never changed.
-/

namespace ScriptTable

theorem Json.kept_int_of_fits {n : Int} (low : -0x8000000000000000 ≤ n)
    (high : n < 0x8000000000000000) : (int n).kept = .int n := by
  have hfits : Host.fitsInteger n = true := by
    rw [Host.fitsInteger, Bool.and_eq_true, decide_eq_true_eq, decide_eq_true_eq]
    exact ⟨low, high⟩
  rw [kept, if_pos hfits]

/-- A number within the signed range is kept as it is. -/
theorem Codec.ComesBack.of_int {α : Type} {c : Codec α} {a : α} {n : Int}
    (h : c.Represents a (.int n)) (low : -0x8000000000000000 ≤ n) (high : n < 0x8000000000000000)
    (levels : Nat) : c.ComesBack a (.int n) levels True := by
  refine .of_represents h (.primitive rfl ?_ levels) (Json.kept_int_of_fits low high)
  simp [Json.inRange]
  omega

namespace Codecs.Lawful

variable {c : Codecs} (laws : c.Lawful)
include laws

theorem comesBack_int64 (n : Int64) (levels : Nat) :
    c.int64.ComesBack n (.int n.toInt) levels True :=
  .of_int (laws.int64 n) n.le_toInt n.toInt_lt levels

theorem comesBack_uint32 (n : UInt32) (levels : Nat) :
    c.uint32.ComesBack n (.int n.toNat) levels True := by
  have hhigh := n.toNat_lt
  exact .of_int (laws.uint32 n) (by omega) (by omega) levels

/-- Beyond the signed range a number is kept as a float. -/
theorem comesBack_uint64 (n : UInt64) (levels : Nat) :
    c.uint64.ComesBack n (.int n.toNat) levels (n.toNat ≤ 0x7fffffffffffffff) where
  written := (laws.uint64 n).encode
  regular := by
    have hhigh := n.toNat_lt
    refine .primitive rfl ?_ levels
    simp [Json.inRange]
    omega
  same := by
    intro hfits
    rw [Json.kept_int_of_fits (by omega) (by omega)]
    exact (laws.uint64 n).decode
  refused := by
    intro hbeyond
    rw [Json.kept, if_neg (by simp [Host.fitsInteger]; omega)]
    exact laws.uint64_float _

theorem comesBack_double (x : Double) (levels : Nat) :
    ∃ j, c.double.ComesBack x j levels (x.isFinite = true) := by
  cases hfinite : x.isFinite with
  | true =>
    have hrange : (Json.float x).inRange = true := hfinite
    have regular : (Json.float x).Regular levels := .primitive rfl hrange levels
    have hback := Codec.ComesBack.of_represents (laws.double x hfinite) regular rfl
    exact ⟨_, hback.congr (by simp)⟩
  | false =>
    refine ⟨.null, laws.double_null x hfinite, .primitive rfl rfl levels, fun h => ?_,
      fun _ => laws.null_refused⟩
    cases h

theorem comesBack_bool (b : Bool) (levels : Nat) : c.bool.ComesBack b (.bool b) levels True :=
  .of_represents (laws.bool b) (.primitive rfl rfl levels) rfl

theorem comesBack_text (s : String) (levels : Nat) : c.text.ComesBack s (.text s) levels True :=
  .of_represents (laws.text s) (.primitive rfl rfl levels) rfl

/-- A list has no text keys, so an empty object is what is left of it. -/
theorem comesBack_list (items : List Int64) :
    ∃ j, c.list.ComesBack items j 1 False := by
  have hitems : List.Forall₂ (fun n j => c.int64.encode n = .ok j) items
      (items.map fun n => .int n.toInt) :=
    List.forall₂_map_right_iff.mpr (List.forall₂_same.mpr fun n _ => (laws.int64 n).encode)
  refine ⟨_, laws.list items _ hitems, .list fun j hj => ?_, False.elim,
    fun _ => laws.object_refused []⟩
  obtain ⟨n, -, rfl⟩ := List.mem_map.mp hj
  exact (laws.comesBack_int64 n 0).regular

theorem comesBack_point (p : Point) (levels : Nat) :
    ∃ ms, c.point.ComesBack p (.object ms) (levels + 1) (p.y.isFinite = true) := by
  obtain ⟨ms, h⟩ := laws.point.comesBack (by simp)
    (.cons ⟨_, laws.comesBack_int64 p.x levels⟩ (.cons (laws.comesBack_double p.y levels) .nil))
  exact ⟨ms, h.congr (by simp)⟩

theorem comesBack_segment (s : Segment) :
    ∃ ms, c.segment.ComesBack s (.object ms) 2 (s.start.y.isFinite = true) := by
  obtain ⟨start, hstart⟩ := laws.comesBack_point s.start 0
  obtain ⟨ms, h⟩ := laws.segment.comesBack (by simp)
    (.cons ⟨_, laws.comesBack_text s.label 1⟩ (.cons ⟨_, hstart⟩ .nil))
  exact ⟨ms, h.congr (by simp)⟩

theorem comesBack_itemList (l : ItemList) :
    ∃ ms, c.itemList.ComesBack l (.object ms) 2 False := by
  obtain ⟨ms, h⟩ := laws.itemList.comesBack (by simp) (.cons (laws.comesBack_list l.items) .nil)
  exact ⟨ms, h.congr (by simp)⟩

theorem comesBack_user (u : User) :
    ∃ ms, c.user.ComesBack u (.object ms) 1 True := by
  obtain ⟨ms, h⟩ := laws.user.comesBack (by simp)
    (.cons ⟨_, laws.comesBack_text u.name 0⟩ (.cons ⟨_, laws.comesBack_uint32 u.age 0⟩ .nil))
  exact ⟨ms, h.congr (by simp)⟩

theorem comesBack_customer (a : Customer) (levels : Nat) :
    ∃ ms, c.customer.ComesBack a (.object ms) (levels + 1) (a.score.isFinite = true) := by
  obtain ⟨ms, h⟩ := laws.customer.comesBack (by simp)
    (.cons ⟨_, laws.comesBack_text a.name levels⟩
      (.cons (laws.comesBack_double a.score levels) .nil))
  exact ⟨ms, h.congr (by simp)⟩

theorem comesBack_order (o : Order) :
    ∃ ms, c.order.ComesBack o (.object ms) 2
      (o.id.toNat ≤ 0x7fffffffffffffff ∧ o.customer.score.isFinite = true) := by
  obtain ⟨customer, hcustomer⟩ := laws.comesBack_customer o.customer 0
  obtain ⟨ms, h⟩ := laws.order.comesBack (by simp)
    (.cons ⟨_, laws.comesBack_uint64 o.id 1⟩
      (.cons ⟨_, hcustomer⟩ (.cons ⟨_, laws.comesBack_bool o.paid 1⟩ .nil)))
  exact ⟨ms, h.congr (by simp)⟩

end Codecs.Lawful

namespace Bridge

/-- What is returned is the value itself if `p` holds, and otherwise an error of the projection. -/
structure ExactOrRefused {α : Type} (c : Codec α) (limit : Nat) (next : Identity) (a : α)
    (p : Prop) : Prop where
  exact : p → roundTrip c limit next a = .ok a
  refused : ¬p → ∃ e, roundTrip c limit next a = .error (.projection c.name e)

theorem exactOrRefused {α : Type} {c : Codec α} {a : α} {ms : List (String × Json)} {levels : Nat}
    {p : Prop} (h : c.ComesBack a (.object ms) levels p) {limit : Nat} (deep : levels ≤ limit)
    (next : Identity) : ExactOrRefused c limit next a p := by
  have hhost : Host.ofObject c.encode a = .ok (.structured (.object ms)) := by
    rw [Host.ofObject, h.written]
  obtain ⟨t, next', -, hlift, himage⟩ := Host.lift_document (h := .structured (.object ms)) rfl rfl
    (h.regular.within.trans deep) next
  have hkept : t.toJson = (Json.object ms).kept :=
    Json.toJson_of_image himage h.regular.distinct h.regular.range
  have hround : roundTrip c limit next a = t.project c.toTarget := by
    rw [roundTrip, hhost]
    change ((Host.structured (.object ms)).liftValue limit next >>= fun r => toHost _ r.1) = _
    rw [hlift]
    rfl
  constructor
  · intro hp
    rw [hround, Table.project, hkept, h.same hp]
  · intro hp
    obtain ⟨e, he⟩ := h.refused hp
    rw [hround, Table.project, hkept, he]
    exact ⟨e, rfl⟩

/-- A record comes back bit for bit, or what a table does not keep of it is refused by the field it
belongs to: a number beyond the signed range, a float that is not finite, a list. -/
theorem roundTrip_exact_or_refused {c : Codecs} (laws : c.Lawful) {limit : Nat} (deep : 2 ≤ limit)
    (next : Identity) :
    (∀ o : Order, ExactOrRefused c.order limit next o
        (o.id.toNat ≤ 0x7fffffffffffffff ∧ o.customer.score.isFinite = true)) ∧
      (∀ u : User, roundTrip c.user limit next u = .ok u) ∧
      (∀ s : Segment, ExactOrRefused c.segment limit next s (s.start.y.isFinite = true)) ∧
      ∀ l : ItemList, ∃ e,
        roundTrip c.itemList limit next l = .error (.projection c.itemList.name e) := by
  refine ⟨fun o => ?_, fun u => ?_, fun s => ?_, fun l => ?_⟩
  · obtain ⟨ms, h⟩ := laws.comesBack_order o
    exact exactOrRefused h deep next
  · obtain ⟨ms, h⟩ := laws.comesBack_user u
    exact (exactOrRefused h (by omega) next).exact trivial
  · obtain ⟨ms, h⟩ := laws.comesBack_segment s
    exact exactOrRefused h deep next
  · obtain ⟨ms, h⟩ := laws.comesBack_itemList l
    exact (exactOrRefused h deep next).refused id

/-- At the limit: the greatest number that comes back and the next one, and an empty list. -/
theorem roundTrip_at_limit :
    let ada : Customer := ⟨"Ada → Ζωή", ⟨0x8000000000000000⟩⟩
    let c := Codecs.shapes
    roundTrip c.order 2 0 ⟨9223372036854775807, ada, true⟩ =
        .ok ⟨9223372036854775807, ada, true⟩ ∧
      (∃ e, roundTrip c.order 2 0 ⟨9223372036854775808, ada, true⟩ =
        .error (.projection "Order" e)) ∧
      roundTrip c.user 2 0 ⟨"", 4294967295⟩ = .ok ⟨"", 4294967295⟩ ∧
      (∃ e, roundTrip c.segment 2 0 ⟨"", ⟨-9223372036854775808, .nan⟩⟩ =
        .error (.projection "Segment" e)) ∧
      ∃ e, roundTrip c.itemList 2 0 ⟨[]⟩ = .error (.projection "WithList" e) := by
  intro ada c
  obtain ⟨horder, huser, hsegment, hlist⟩ :=
    roundTrip_exact_or_refused Codecs.lawful_shapes le_rfl 0
  exact ⟨(horder _).exact ⟨by decide, by decide⟩, (horder _).refused (by decide), huser _,
    (hsegment _).refused (by decide), hlist _⟩

end Bridge

end ScriptTable
