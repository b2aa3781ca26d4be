import ScriptTable.Bridge
import ScriptTable.Record.Shapes

/-!
How a type of the host is written and read. The bridge knows a type by its codec alone, whatever that
may be; the types of `Record.Shapes` have one by their shape.
-/

namespace ScriptTable

/-- How values of a type are written as documents and read from them, by the name that errors give
the type. -/
structure Codec (α : Type) extends Target α where
  encode : α → Except Datum.Error Json

def Codec.ofShape [Shape α] (name : String) : Codec α :=
  ⟨⟨name, Shape.decode⟩, fun a => (Shape.encode a).toJson⟩

/-- An object handed over in structured form, lifted to a script value and read into its own type
again. -/
def Bridge.roundTrip (c : Codec α) (limit : Nat) (next : Identity) (a : α) :
    Except BridgeError α := do
  let h ← Host.ofObject c.encode a
  let (v, _) ← h.liftValue limit next
  toHost c.toTarget v

end ScriptTable
