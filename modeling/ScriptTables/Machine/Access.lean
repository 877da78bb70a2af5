import ScriptTables.Machine.Basic

/-!
# Access through hooks

Reading, writing, measuring and comparing values consult the hooks of their metatables.  A hook that
is a function is called; a hook of another kind is the next link of a chain, on which the access
starts over.  How a value is called is a parameter of everything here.

* `Link`                       what a link of a chain says;
* `Heap.readLink`, `EvalM.index`        reading along a chain;
* `Heap.writeLink`, `EvalM.setIndex`    writing along a chain;
* `EvalM.length`               the length;
* `EvalM.lessThan`             the order.
-/

namespace ScriptTables

/-! ## links -/

/-- what a link of a chain of metatables says about an access -/
inductive Link (α : Type) where
  /-- the access ends here -/
  | stop (a : α)
  /-- the access goes on with a handler -/
  | follow (handler : Value)
  /-- the link is no table and has no handler -/
  | refuse
  deriving DecidableEq, Repr

namespace Heap

/-- Reading at a link: a table answers with what it holds, and with `nil` when it has no handler. -/
def readLink (h : Heap) (object key : Value) : Link Value :=
  match object with
  | .table id =>
    let raw := (h.table id).get key
    if raw.isNil then
      let handler := h.metamethod object indexHook
      if handler.isNil then .stop .nil else .follow handler
    else .stop raw
  | _ =>
    let handler := h.metamethod object indexHook
    if handler.isNil then .refuse else .follow handler

/-- Writing at a link: a table takes the write when it holds the key or has no handler. -/
def writeLink (h : Heap) (object key : Value) : Link TableId :=
  match object with
  | .table id =>
    if ((h.table id).get key).isNil then
      let handler := h.metamethod object newIndexHook
      if handler.isNil then .stop id else .follow handler
    else .stop id
  | _ =>
    let handler := h.metamethod object newIndexHook
    if handler.isNil then .refuse else .follow handler

/-- the hook that compares two values: that of the first, else that of the second -/
def lessHandler (h : Heap) (a b : Value) : Value :=
  let handler := h.metamethod a lessHook
  if handler.isNil then h.metamethod b lessHook else handler

end Heap

namespace EvalM

section
variable (call : Caller)

def callFirst (callee : Value) (arguments : List Value) : EvalM Value := do
  let results ← call callee arguments
  pure (firstOf results)

/-! ## reading and writing -/

/-- read along a chain of at most so many links -/
def indexFrom (key : Value) : Nat → Value → EvalM Value
  | 0, _ => fail .readChainTooLong
  | links + 1, object => do
    match ← readHeap fun h => h.readLink object key with
    | .stop v => pure v
    | .refuse => fail (.cannotIndex object.typeName)
    | .follow (.function f) => callFirst call (.function f) [object, key]
    | .follow handler => indexFrom key links handler

def index (object key : Value) : EvalM Value := do
  let links ← observe fun m => m.limits.maxMetaChain
  indexFrom call key links object

def setIndexFrom (key value : Value) : Nat → Value → EvalM Unit
  | 0, _ => fail .writeChainTooLong
  | links + 1, object => do
    match ← readHeap fun h => h.writeLink object key with
    | .stop id => rawSet id key value
    | .refuse => fail (.cannotIndex object.typeName)
    | .follow (.function f) => do
      let _ ← call (.function f) [object, key, value]
      pure ()
    | .follow handler => setIndexFrom key value links handler

def setIndex (object key value : Value) : EvalM Unit := do
  let links ← observe fun m => m.limits.maxMetaChain
  setIndexFrom call key value links object

/-! ## length and order -/

/-- the length of a value: what its hook answers, else its own length -/
def length (v : Value) : EvalM Value := do
  let handler ← readHeap fun h => h.metamethod v lengthHook
  if handler.isNil then
    match ← readHeap fun h => h.rawLength? v with
    | some n => pure (.integer n)
    | none => fail (.cannotMeasure v.typeName)
  else callFirst call handler [v]

/-- whether one value is below another, by their own order or by a hook -/
def lessThan (a b : Value) : EvalM Bool :=
  match a.less? b with
  | some less => pure less
  | none => do
    let handler ← readHeap fun h => h.lessHandler a b
    if handler.isNil then fail (.cannotCompare a.typeName b.typeName)
    else do
      let v ← callFirst call handler [a, b]
      pure v.isTruthy

end

end EvalM

end ScriptTables
