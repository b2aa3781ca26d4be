import ScriptTable.Main
import ScriptTable.Record.Codec
import ScriptTable.Proofs.Partition.Inserted
import ScriptTable.Proofs.Partition.Sorted
import ScriptTable.Proofs.Partition.BinarySearch
import ScriptTable.Proofs.Partition.Index
import ScriptTable.Proofs.Partition.Ordered
import ScriptTable.Proofs.Partition.Fallback
import ScriptTable.Proofs.Table.History
import ScriptTable.Proofs.Table.Traversal
import ScriptTable.Proofs.Table.WriteOrder
import ScriptTable.Proofs.Table.Walk
import ScriptTable.Proofs.Lift.Exact
import ScriptTable.Proofs.Lift.Composite
import ScriptTable.Proofs.Lift.Outcome
import ScriptTable.Proofs.Lift.Orderly
import ScriptTable.Proofs.Table.Reachable
import ScriptTable.Proofs.Projection.Kept
import ScriptTable.Proofs.Projection.Stable
import ScriptTable.Proofs.CommandLine.Answer
import ScriptTable.Proofs.Value.Equivalence
import ScriptTable.Proofs.Record.Laws
import ScriptTable.Proofs.Record.Lawful
import ScriptTable.Proofs.Record.RoundTrip
import ScriptTable.Proofs.Table.ValueProtocol
import ScriptTable.Proofs.Json.Accepted
import ScriptTable.Proofs.CommandLine.Depth
import ScriptTable.Proofs.Lift.TakenApart
import ScriptTable.Proofs.Table.SameEntries
import ScriptTable.Proofs.Lift.EntryOrder
import ScriptTable.Proofs.Lift.InPlace
import ScriptTable.Proofs.Bridge.Context
import ScriptTable.Proofs.Projection.TextView
import ScriptTable.Proofs.Table.Congruence
import ScriptTable.Proofs.Table.TwoWrites
import ScriptTable.Proofs.Table.ListView
import ScriptTable.Proofs.Lift.FreshKey
import ScriptTable.Proofs.Lift.NullKey
import ScriptTable.Proofs.Lift.UnsignedKeys
import ScriptTable.Proofs.Double.Comparison
import ScriptTable.Proofs.Value.KeyClasses
import ScriptTable.Proofs.Config.Depth
import ScriptTable.Proofs.CommandLine.Flags
