import ScriptTables.Machine.Access

/-!
# What the library asks of its host

The functions of the library are written against a host: a record of the actions that they may take
on values.  The machine is such a host once it is told how to call values; the state of a host is a
parameter, so the same functions also run where accesses are recorded or answered otherwise.

* `Host σ`          the actions, on a state `σ`;
* `Machine.host`    the machine as a host.
-/

namespace ScriptTables

structure Host (σ : Type) where
  /-- the metatable of a value -/
  metatable? : Value → Action σ (Option TableId)
  /-- a field of a table, read raw -/
  field : TableId → String → Action σ Value
  /-- the border of a table, without hooks -/
  border : TableId → Action σ Int64
  /-- the length of a value, by its hook -/
  length : Value → Action σ Value
  /-- the element of a value under a key, by its hooks -/
  index : Value → Value → Action σ Value
  /-- put an element under a key of a value, by its hooks -/
  setIndex : Value → Value → Value → Action σ Unit
  /-- whether one value is below another -/
  lessThan : Value → Value → Action σ Bool
  /-- call a value and keep its first result -/
  call : Value → List Value → Action σ Value
  /-- a new table -/
  newTable : Table → Action σ TableId
  /-- whether so many results fit -/
  fits : Nat → Action σ Bool

/-- the machine as a host, given a way to call values -/
def Machine.host (call : Caller) : Host Machine where
  metatable? v := EvalM.readHeap fun h => h.metatable? v
  field id name := EvalM.readHeap fun h => (h.table id).getString name
  border id := EvalM.readHeap fun h => Int64.ofNat (h.table id).border
  length := EvalM.length call
  index := EvalM.index call
  setIndex := EvalM.setIndex call
  lessThan := EvalM.lessThan call
  call := EvalM.callFirst call
  newTable := EvalM.newTable
  fits n := observe fun m => decide (n ≤ m.limits.maxStack)

end ScriptTables
