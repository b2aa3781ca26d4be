import ScriptTable.Record.Decoding

/-!
Record types that tables are read into: nested records, numbers of each width, a list, a default,
an optional field, and a record that refuses members it does not know.
-/

namespace ScriptTable

structure Point where
  x : Int64
  y : Double
  deriving DecidableEq

namespace Point

def xField : Field Int64 := .required "x"
def yField : Field Double := .required "y"

instance : Shape Point where
  encode p := .record [("x", .int p.x.toInt), ("y", .float p.y)]
  decode j := do
    let ms ← Field.members "struct Point" [xField.check, yField.check] false j
    return ⟨← xField.read ms, ← yField.read ms⟩

end Point

structure Segment where
  label : String
  start : Point
  deriving DecidableEq

namespace Segment

def labelField : Field String := .required "label"
def startField : Field Point := .required "start"

instance : Shape Segment where
  encode s := .record [("label", .text s.label), ("start", Shape.encode s.start)]
  decode j := do
    let ms ← Field.members "struct Segment" [labelField.check, startField.check] false j
    return ⟨← labelField.read ms, ← startField.read ms⟩

end Segment

structure ItemList where
  items : List Int64
  deriving DecidableEq

namespace ItemList

def itemsField : Field (List Int64) := .required "items"

instance : Shape ItemList where
  encode l := .record [("items", Shape.encode l.items)]
  decode j := do
    let ms ← Field.members "struct WithList" [itemsField.check] false j
    return ⟨← itemsField.read ms⟩

end ItemList

structure Customer where
  name : String
  score : Double
  deriving DecidableEq

namespace Customer

def nameField : Field String := .required "name"
def scoreField : Field Double := .required "score"

instance : Shape Customer where
  encode c := .record [("name", .text c.name), ("score", .float c.score)]
  decode j := do
    let ms ← Field.members "struct Customer" [nameField.check, scoreField.check] false j
    return ⟨← nameField.read ms, ← scoreField.read ms⟩

end Customer

structure Order where
  id : UInt64
  customer : Customer
  paid : Bool
  deriving DecidableEq

namespace Order

def idField : Field UInt64 := .required "id"
def customerField : Field Customer := .required "customer"
def paidField : Field Bool := .required "paid"

instance : Shape Order where
  encode o :=
    .record [("id", .int o.id.toNat), ("customer", Shape.encode o.customer), ("paid", .bool o.paid)]
  decode j := do
    let ms ← Field.members "struct Order" [idField.check, customerField.check, paidField.check]
      false j
    return ⟨← idField.read ms, ← customerField.read ms, ← paidField.read ms⟩

end Order

structure User where
  name : String
  age : UInt32
  deriving DecidableEq

namespace User

def nameField : Field String := .required "name"
def ageField : Field UInt32 := .required "age"

instance : Shape User where
  encode u := .record [("name", .text u.name), ("age", .int u.age.toNat)]
  decode j := do
    let ms ← Field.members "struct User" [nameField.check, ageField.check] false j
    return ⟨← nameField.read ms, ← ageField.read ms⟩

end User

structure Settings where
  name : String
  retries : UInt32
  note : Option String
  deriving DecidableEq

namespace Settings

def nameField : Field String := .required "name"
def retriesField : Field UInt32 := .withDefault "retries" 0
def noteField : Field (Option String) := .withDefault "note" none

instance : Shape Settings where
  encode s :=
    .record [("name", .text s.name), ("retries", .int s.retries.toNat),
      ("note", Shape.encode s.note)]
  decode j := do
    let ms ← Field.members "struct Settings"
      [nameField.check, retriesField.check, noteField.check] false j
    return ⟨← nameField.read ms, ← retriesField.read ms, ← noteField.read ms⟩

end Settings

/-- A record that has this one field and no other. -/
structure Strict where
  a : Int64
  deriving DecidableEq

namespace Strict

def aField : Field Int64 := .required "a"

instance : Shape Strict where
  encode s := .record [("a", .int s.a.toInt)]
  decode j := do
    let ms ← Field.members "struct Strict" [aField.check] true j
    return ⟨← aField.read ms⟩

end Strict

end ScriptTable
