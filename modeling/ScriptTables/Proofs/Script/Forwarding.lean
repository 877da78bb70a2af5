import ScriptTables.Proofs.Library.StandIn
import ScriptTables.Proofs.Script.Termination

/-!
# Hooks and comparators as scripts

The hooks of an object that stands in for a list, as functions of a script: raw access to the hidden
table, and its border.  A comparator that asks for the order of its two arguments.

* `call_script_run`            a call of a function of a script;
* `inFrame_run`                what runs in a frame of its own;
* `readingBody`, `writingBody`, `measuringBody`   the bodies of the hooks;
* `comparing_run`              the comparator;
* `StandIn.Scripted.forwards`  hooks with these bodies do to the hidden table what is done to a list.
-/

namespace ScriptTables

theorem call_script_run {m : Machine} {f : FunctionId} {body : List Step}
    (hcode : (m.heap.function f).code = .script body) (hlevel : m.depth < m.limits.maxCallDepth)
    (args : List Value) :
    (EvalM.call (.function f) args).run m
      = (EvalM.nested (runBody EvalM.call body args)).run m := by
  have hdispatch : (EvalM.nested (EvalM.dispatch EvalM.call (.function f) args)).run m
      = (EvalM.nested (EvalM.runCode EvalM.call (m.heap.function f).code args)).run m := rfl
  rw [call_run, if_neg (by omega), hdispatch, hcode]
  rfl

theorem inFrame_run {α : Type} (frame : Frame) (x : EvalM α) (m : Machine) :
    (inFrame frame x).run m
      = match x.run { m with session := { m.session with frame := some frame } } with
        | .ok a m' => .ok a { m' with session := { m'.session with frame := m.session.frame } }
        | .error e m' =>
          .error e { m' with session := { m'.session with frame := m.session.frame } } := by
  have hswap : ∀ (frame : Option Frame) (m : Machine), (swapFrame frame).run m
      = .ok m.session.frame { m with session := { m.session with frame := frame } } :=
    fun _ _ => rfl
  rw [inFrame, run_bind_of_ok (hswap _ m), run_bind, run_tryCatch]
  cases x.run { m with session := { m.session with frame := some frame } } <;> rfl

def finishWith (op : Op) : List Step := [.mk (.finish [.single (.result (.mk op none))]) none]

def readingBody (id : TableId) : List Step :=
  finishWith (.binary .rawGet (.value (.table id)) (.argument 1))

def writingBody (id : TableId) : List Step :=
  [.mk (.ternary .rawSet (.value (.table id)) (.argument 1) (.argument 2)) none]

def measuringBody (id : TableId) : List Step := finishWith (.unary .border (.value (.table id)))

def comparingBody : List Step := finishWith (.binary .lessThan (.argument 0) (.argument 1))

theorem comparing_run (call : Caller) (a b : Value) (m : Machine) :
    (runBody call comparingBody [a, b]).run m = (inFrame ⟨[a, b], []⟩ (do
      let less ← EvalM.lessThan call a b
      pure [Value.boolean less])).run m := by
  simp only [runBody, comparingBody, finishWith, runSteps, runStep, runOp, runItems, runItem,
    runExpr, Binary.run, bind_assoc, pure_bind]
  rw [inFrame_run, inFrame_run]
  rfl

namespace StandIn

structure Scripted (x : StandIn) : Prop where
  index : x.index.function.code = .script (readingBody x.hidden)
  newIndex : x.newIndex.function.code = .script (writingBody x.hidden)
  length : x.length.function.code = .script (measuringBody x.hidden)

/-- a hook runs the code that it has wherever it is on the heap -/
theorem code_of_in {f : Hook} {m : Machine} {body : List Step} (hin : f.In m.heap)
    (hcode : f.function.code = .script body) : (m.heap.function f.id).code = .script body := by
  rw [show m.heap.function f.id = f.function from hin, hcode]

theorem Scripted.forwards {x : StandIn} (h : x.Scripted) : x.Forwards EvalM.call where
  index m hin hlevel object i := by
    rw [EvalM.callFirst, run_bind, call_script_run (code_of_in hin h.index) hlevel]
    rfl
  newIndex m hin hlevel object i v := by
    rw [call_script_run (code_of_in hin h.newIndex) hlevel]
    exact ⟨[], rfl⟩
  length m hin hlevel object := by
    rw [EvalM.callFirst, run_bind, call_script_run (code_of_in hin h.length) hlevel]
    rfl

end StandIn

end ScriptTables
