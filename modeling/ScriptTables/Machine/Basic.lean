import ScriptTables.Machine.Session

/-!
# The machine

The state of a run: the heap with its table of globals, the limits, how deep the running calls are
nested, and the session of the script.

* `Limits`    the bounds on calls, results and chains of metatables;
* `Machine`   the state;
* `EvalM`     what changes the state and may fail;
* `Caller`    a way to call a value.
-/

namespace ScriptTables

/-! ## the state -/

structure Limits where
  /-- how deep calls may be nested, those of hooks included -/
  maxCallDepth : Nat := 200
  /-- how many results a call may have -/
  maxStack : Nat := 1000000
  /-- how many links of a chain of metatables are looked at -/
  maxMetaChain : Nat := 2000
  deriving DecidableEq, Repr

structure Machine where
  heap : Heap
  globals : TableId
  limits : Limits
  /-- how many calls are running -/
  depth : Nat := 0
  session : Session := {}

/-- a machine with nothing on its heap but an empty table of globals -/
def Machine.start (limits : Limits) : Machine where
  heap := ({} : Heap).pushTable {}
  globals := ({} : Heap).nextTable
  limits := limits

/-! ## actions on the state -/

abbrev EvalM := Action Machine

/-- a way to call a value with arguments -/
abbrev Caller := Value → List Value → EvalM (List Value)

@[inline] def observe {σ α : Type} (f : σ → α) : Action σ α := fun s => .ok (f s) s

@[inline] def update {σ : Type} (f : σ → σ) : Action σ Unit := fun s => .ok () (f s)

namespace EvalM

@[inline] def readHeap {α : Type} (f : Heap → α) : EvalM α := observe fun m => f m.heap

@[inline] def modifyHeap (f : Heap → Heap) : EvalM Unit := update fun m => { m with heap := f m.heap }

@[inline] def modifySession (f : Session → Session) : EvalM Unit :=
  update fun m => { m with session := f m.session }

def newTable (t : Table) : EvalM TableId := do
  let id ← readHeap Heap.nextTable
  modifyHeap fun h => h.pushTable t
  pure id

def newFunction (f : Function) : EvalM FunctionId := do
  let id ← readHeap Heap.nextFunction
  modifyHeap fun h => h.pushFunction f
  pure id

def newUserdata (u : Userdata) : EvalM UserdataId := do
  let id ← readHeap Heap.nextUserdata
  modifyHeap fun h => h.pushUserdata u
  pure id

def rawSet (id : TableId) (k v : Value) : EvalM Unit :=
  match Key.ofValue? k with
  | .ok key => modifyHeap fun h => h.modifyTable id fun t => t.setKey key v
  | .error fault => fail fault

def setMetatable (v : Value) (metatable : Option TableId) : EvalM Unit :=
  match v with
  | .table id => modifyHeap fun h => h.modifyTable id fun t => { t with metatable := metatable }
  | .userdata id => modifyHeap fun h => h.modifyUserdata id fun u => { u with metatable := metatable }
  | other => fail (.cannotCarryMetatable other.typeName)

theorem rawSet_of_ok {k : Value} {key : Key} (h : Key.ofValue? k = .ok key) (id : TableId)
    (v : Value) :
    rawSet id k v = modifyHeap fun h => h.modifyTable id fun t => t.setKey key v := by
  rw [rawSet, h]

theorem rawSet_of_error {k : Value} {fault : Fault} (h : Key.ofValue? k = .error fault)
    (id : TableId) (v : Value) : rawSet id k v = fail fault := by
  rw [rawSet, h]

def getGlobal (name : String) : EvalM Value :=
  observe fun m => (m.heap.table m.globals).getString name

def setGlobal (name : String) (v : Value) : EvalM Unit :=
  update fun m => { m with heap := m.heap.modifyTable m.globals fun t => t.setString name v }

end EvalM

end ScriptTables
