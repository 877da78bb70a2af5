import ScriptTables.Fault
import ScriptTables.Library.Arguments
import ScriptTables.Library.Capability
import ScriptTables.Library.Collection
import ScriptTables.Library.Function
import ScriptTables.Library.Host
import ScriptTables.Library.Insert
import ScriptTables.Library.Move
import ScriptTables.Library.Namespace
import ScriptTables.Library.Remove
import ScriptTables.Library.Sort
import ScriptTables.Library.Transfer
import ScriptTables.Machine.Access
import ScriptTables.Machine.Basic
import ScriptTables.Machine.Call
import ScriptTables.Machine.Heap
import ScriptTables.Machine.Session
import ScriptTables.Numeric.Binary64
import ScriptTables.Numeric.Numeral
import ScriptTables.Numeric.Rendering
import ScriptTables.Numeric.Rounding
import ScriptTables.Proofs.Action
import ScriptTables.Proofs.Budget
import ScriptTables.Proofs.InStep
import ScriptTables.Proofs.Library.Borders
import ScriptTables.Proofs.Library.Checks
import ScriptTables.Proofs.Library.Companions
import ScriptTables.Proofs.Library.Copying
import ScriptTables.Proofs.Library.Echoing
import ScriptTables.Proofs.Library.Effects
import ScriptTables.Proofs.Library.Entries
import ScriptTables.Proofs.Library.Gathering
import ScriptTables.Proofs.Library.Guards
import ScriptTables.Proofs.Library.HookCalls
import ScriptTables.Proofs.Library.Insertions
import ScriptTables.Proofs.Library.Joining
import ScriptTables.Proofs.Library.Locality
import ScriptTables.Proofs.Library.Matching
import ScriptTables.Proofs.Library.Packing
import ScriptTables.Proofs.Library.Probing
import ScriptTables.Proofs.Library.Recording
import ScriptTables.Proofs.Library.Rejection
import ScriptTables.Proofs.Library.Restoring
import ScriptTables.Proofs.Library.Schedules
import ScriptTables.Proofs.Library.Sequence
import ScriptTables.Proofs.Library.Shifting
import ScriptTables.Proofs.Library.Spans
import ScriptTables.Proofs.Library.Stages
import ScriptTables.Proofs.Library.StandIn
import ScriptTables.Proofs.Library.Substitution
import ScriptTables.Proofs.Library.Surfacing
import ScriptTables.Proofs.Library.Tracing
import ScriptTables.Proofs.Library.Transcripts
import ScriptTables.Proofs.Library.Unpacking
import ScriptTables.Proofs.Machine.Lasting
import ScriptTables.Proofs.Machine.Links
import ScriptTables.Proofs.Machine.Reading
import ScriptTables.Proofs.Machine.Writing
import ScriptTables.Proofs.Numeric.Amount
import ScriptTables.Proofs.Numeric.DecimalText
import ScriptTables.Proofs.Numeric.Exact
import ScriptTables.Proofs.Numeric.Leading
import ScriptTables.Proofs.Numeric.Nearest
import ScriptTables.Proofs.Plain
import ScriptTables.Proofs.Reachable
import ScriptTables.Proofs.Script.CallDepth
import ScriptTables.Proofs.Script.Calling
import ScriptTables.Proofs.Script.Lasting
import ScriptTables.Proofs.Script.Termination
import ScriptTables.Proofs.Sort.Arrangement
import ScriptTables.Proofs.Sort.Budget
import ScriptTables.Proofs.Sort.Conserving
import ScriptTables.Proofs.Sort.Heap
import ScriptTables.Proofs.Sort.Insertion
import ScriptTables.Proofs.Sort.Laps
import ScriptTables.Proofs.Sort.Native
import ScriptTables.Proofs.Sort.Ordering
import ScriptTables.Proofs.Sort.Parallel
import ScriptTables.Proofs.Sort.Partition
import ScriptTables.Proofs.Sort.Positions
import ScriptTables.Proofs.Sort.Range
import ScriptTables.Proofs.Sort.Sortable
import ScriptTables.Proofs.Sort.Steps
import ScriptTables.Proofs.Table.History
import ScriptTables.Proofs.Table.Naming
import ScriptTables.Proofs.Trace
import ScriptTables.Proofs.Value.Coercion
import ScriptTables.Proofs.Value.Equality
import ScriptTables.Proofs.Value.Order
import ScriptTables.Proofs.Value.Printing
import ScriptTables.Proofs.Value.Rendering
import ScriptTables.Script.Eval
import ScriptTables.Script.Operation
import ScriptTables.Script.Program
import ScriptTables.Script.Report
import ScriptTables.Sort.Heap
import ScriptTables.Sort.Insertion
import ScriptTables.Sort.Partition
import ScriptTables.Sort.Range
import ScriptTables.Sort.Slots
import ScriptTables.Table.Basic
import ScriptTables.Table.Key
import ScriptTables.Table.Lemmas
import ScriptTables.Text.Blank
import ScriptTables.Value.Basic
import ScriptTables.Value.Coercion
import ScriptTables.Value.Comparison
