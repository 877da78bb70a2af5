import ScriptTables.Script.Operation

/-!
# Running scripts

Operands are evaluated in the order in which an operation names them, then the operation runs; but an
operand that has to be a collection is checked at once, before the operands behind it.  How a value is
called is a parameter, so the recursion here is on the script alone.

* `Outcome`              results of a step, or results that end the running function;
* `runExpr`, `runItems`  operands;
* `runStep`, `runSteps`  steps;
* `runBody`              the body of a function, in a frame of its own.
-/

namespace ScriptTables

/-! ## outcomes -/

/-- what a step comes to -/
inductive Outcome where
  | results (vs : List Value)
  /-- the running function ends with these results -/
  | finished (vs : List Value)
  deriving Repr

namespace Outcome

def values : Outcome → List Value
  | .results vs => vs
  | .finished vs => vs

def ofSteps : Option (List Value) → Outcome
  | none => .results []
  | some vs => .finished vs

end Outcome

/-- raise an error that wraps a fault in others, the last of them outermost -/
def raiseWrapped {α : Type} (fault : Fault) (around : List Fault) : EvalM α :=
  throw (around.foldl Error.wrap ⟨fault, []⟩)

/-- bind a name in the running function, or in the session -/
def bindName (name : String) (v : Value) : EvalM Unit :=
  EvalM.modifySession fun s => s.bind name v

/-- run something `n` times with a counter, until it finishes the running function -/
def runLoop (counter : String) (body : EvalM (Option (List Value))) :
    Nat → Int → EvalM (Option (List Value))
  | 0, _ => pure none
  | n + 1, i => do
    bindName counter (.integer (Int64.ofInt i))
    match ← body with
    | some vs => pure (some vs)
    | none => runLoop counter body n (i + 1)

/-- what an attempt tells: success, or the kind and message of the error -/
def attempted (body : EvalM (Option (List Value))) : EvalM (List Value) :=
  tryCatch (do let _ ← body; pure [.boolean true]) fun e =>
    pure [.boolean false, .string e.fault.kind.name, .string e.fault.message]

section
variable (call : Caller)

/-! ## operands and steps -/

mutual

def runExpr : Expr → EvalM Value
  | .value v => pure v
  | .var name => observe fun m => m.session.find name
  | .argument n => observe fun m => m.session.arguments.getD n .nil
  | .result s => do
    let outcome ← runStep s
    pure (firstOf outcome.values)
  | .table items entries metatable => do
    let vs ← runItems items
    let t ← runEntries entries (Table.ofList vs)
    let v ← runOptional metatable
    let id ← EvalM.newTable { t with metatable := v.bind Value.table? }
    pure (.table id)
  | .userdata metatable => do
    let v ← runExpr metatable
    let id ← EvalM.newUserdata ⟨v.table?⟩
    pure (.userdata id)
  | .function name body => do
    let id ← EvalM.newFunction ⟨name, .script body⟩
    pure (.function id)

def runOptional : Option Expr → EvalM (Option Value)
  | none => pure none
  | some e => do
    let v ← runExpr e
    pure (some v)

def runEntries : List (Expr × Expr) → Table → EvalM Table
  | [], t => pure t
  | entry :: entries, t => do
    let t ← runEntry entry t
    runEntries entries t

def runEntry : Expr × Expr → Table → EvalM Table
  | (key, value), t => do
    let k ← runExpr key
    let v ← runExpr value
    match t.set k v with
    | .ok t => pure t
    | .error fault => fail fault

def runItem : Item → EvalM (List Value)
  | .single e => do
    let v ← runExpr e
    pure [v]
  | .rest n => observe fun m => m.session.arguments.drop n

def runItems : List Item → EvalM (List Value)
  | [] => pure []
  | item :: items => do
    let vs ← runItem item
    let ws ← runItems items
    pure (vs ++ ws)

def runOp : Op → EvalM Outcome
  | .give e => do
    let v ← runExpr e
    pure (.results [v])
  | .log items => do
    let vs ← runItems items
    update fun m =>
      let line := vs.map fun v => m.session.render m.heap v
      { m with session := { m.session with log := m.session.log.push line } }
    pure (.results [])
  | .branch condition whenTrue whenFalse => do
    let v ← runExpr condition
    let finished ← if v.isTruthy then runSteps whenTrue else runSteps whenFalse
    pure (.ofSteps finished)
  | .loop n counter body => do
    let finished ← runLoop counter (runSteps body) n 1
    pure (.ofSteps finished)
  | .finish items => do
    let vs ← runItems items
    pure (.finished vs)
  | .attempt body => do
    let vs ← attempted (runSteps body)
    pure (.results vs)
  | .count s => do
    let outcome ← runStep s
    pure (.results [.integer (Int64.ofNat outcome.values.length)])
  | .raise fault around => raiseWrapped fault around
  | .raiseWrongType position function expected got around => do
    let v ← runOptional got
    raiseWrapped (.wrongType position function expected (v.map Value.typeName)) around
  | .nullary op => do
    let vs ← op.run
    pure (.results vs)
  | .unary op a => do
    let v ← runExpr a
    let vs ← op.run call v
    pure (.results vs)
  | .binary op a b => do
    let v ← runExpr a
    let w ← runExpr b
    let vs ← op.run call v w
    pure (.results vs)
  | .ternary op a b c => do
    let v ← runExpr a
    let w ← runExpr b
    let u ← runExpr c
    let vs ← op.run call v w u
    pure (.results vs)
  | .call callee arguments => do
    let f ← runExpr callee
    let args ← runItems arguments
    let vs ← call f args
    pure (.results vs)
  | .callFirst callee arguments => do
    let f ← runExpr callee
    let args ← runItems arguments
    let v ← EvalM.callFirst call f args
    pure (.results [v])
  | .library f arguments => do
    let args ← runItems arguments
    let vs ← (Machine.host call).library f args
    pure (.results vs)
  | .pack items => do
    let vs ← runItems items
    let id ← (Machine.host call).pack vs
    pure (.results [.table id])
  | .move source target first last destination => do
    let s ← runExpr source
    let t ← runOptional target
    let f ← runExpr first
    let e ← runExpr last
    let d ← runExpr destination
    let vs ← runMove call s t f e d
    pure (.results vs)
  | .check request value => do
    let v ← runOptional value
    let vs ← request.describe call v
    pure (.results vs)
  | .collectionBorder request value => do
    let v ← runOptional value
    let vs ← request.border call v
    pure (.results vs)
  | .collectionGet request value key => do
    let v ← runOptional value
    let c ← request.collection call v
    let k ← runExpr key
    let vs ← c.elementAt call k
    pure (.results vs)
  | .collectionSet request value key new => do
    let v ← runOptional value
    let c ← request.collection call v
    let k ← runExpr key
    let w ← runExpr new
    let vs ← c.putElement call k w
    pure (.results vs)
  | .sameCollection request a b => do
    let v ← runOptional a
    let c ← request.collection call v
    let w ← runOptional b
    let d ← request.collection call w
    pure (.results [.boolean (c.sameAs d)])

/-- a step binds its name on success, and not when it finishes the running function -/
def runStep : Step → EvalM Outcome
  | .mk op target => do
    match ← runOp op with
    | .finished vs => pure (.finished vs)
    | .results vs =>
      match target with
      | some name => bindName name (firstOf vs)
      | none => pure ()
      pure (.results vs)

/-- run steps until one finishes the running function; the results it finishes with, if any -/
def runSteps : List Step → EvalM (Option (List Value))
  | [] => pure none
  | s :: steps => do
    match ← runStep s with
    | .finished vs => pure (some vs)
    | .results _ => runSteps steps

end

/-! ## functions -/

/-- enter a frame and return the one that was left -/
def swapFrame (frame : Option Frame) : EvalM (Option Frame) := fun m =>
  .ok m.session.frame { m with session := { m.session with frame := frame } }

/-- run something in a frame of its own; the frame that was left is entered again in any case -/
def inFrame {α : Type} (frame : Frame) (x : EvalM α) : EvalM α := do
  let old ← swapFrame (some frame)
  let a ← tryCatch x fun e => do
    let _ ← swapFrame old
    throw e
  let _ ← swapFrame old
  pure a

def runBody (body : List Step) (args : List Value) : EvalM (List Value) :=
  inFrame ⟨args, []⟩ do
    let finished ← runSteps call body
    pure (finished.getD [])

end

end ScriptTables
