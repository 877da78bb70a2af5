import ScriptTables.Script.Eval

/-!
# Calls

A call of a function runs its code; a call of another value calls the `__call` hook of its metatable
with the value before the arguments.  Calls may be nested up to a limit.

Everything that runs during a call gets a caller for the calls nested in it, and that caller has one
level less.  So the recursion is on the levels, and with as many levels as the limit allows a call
never lacks one before the count of running calls is at the limit too.

* `EvalM.dispatch`   run a function, or pass a call on to a hook;
* `EvalM.callAt`     a call with so many levels left;
* `EvalM.call`       a call from outside of all calls.
-/

namespace ScriptTables

namespace EvalM

def runCode (call : Caller) (code : Code) (args : List Value) : EvalM (List Value) :=
  match code with
  | .library f => (Machine.host call).library f args
  | .script body => runBody call body args

/-- run a function, or pass a call on to a hook -/
def dispatch (call : Caller) (callee : Value) (args : List Value) : EvalM (List Value) :=
  match callee with
  | .function f => do
    let code ← readHeap fun h => (h.function f).code
    runCode call code args
  | other => do
    let handler ← readHeap fun h => h.metamethod other callHook
    if handler.isNil then fail (.cannotCall other.typeName)
    else call handler (other :: args)

/-- count a call as running while something runs, however that ends -/
def nested {α : Type} (x : EvalM α) : EvalM α := fun m =>
  match x { m with depth := m.depth + 1 } with
  | .ok a m => .ok a { m with depth := m.depth - 1 }
  | .error e m => .error e { m with depth := m.depth - 1 }

def atLimit : EvalM Bool := observe fun m => decide (m.limits.maxCallDepth ≤ m.depth)

/-- a call with so many levels left for itself and the calls nested in it -/
def callAt : Nat → Caller
  | 0, _, _ => fail .stackOverflow
  | level + 1, callee, args => do
    if ← atLimit then fail .stackOverflow
    else nested (dispatch (callAt level) callee args)

/-- a call from outside of all calls -/
def call : Caller := fun callee args => do
  let levels ← observe fun m => m.limits.maxCallDepth
  callAt levels callee args

end EvalM

end ScriptTables
