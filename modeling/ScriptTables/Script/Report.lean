import ScriptTables.Machine.Call

/-!
# Running a program

A program is run step by step on a fresh machine; a step that fails does not stop the next one.  Each
step is answered with its results or its error, the lines it logged, and the variables watched.

* `Program`    limits, names to watch, and steps;
* `Answer`     what is reported of a step;
* `Program.run`   the answers, one for each step.
-/

namespace ScriptTables

structure Program where
  limits : Limits := {}
  watch : List String := []
  steps : List Step

/-- a watched variable: a table with its raw elements, or another value -/
inductive Watched where
  | table (elements : List Shown) (border entryCount : Nat)
  | other (v : Shown)
  deriving Repr

/-- what is reported of a step -/
structure Answer where
  outcome : Except Error (List Shown)
  log : List (List Shown)
  watched : List Watched

namespace Machine

def render (m : Machine) (v : Value) : Shown := m.session.render m.heap v

def watch (m : Machine) (name : String) : Watched :=
  match m.session.find name with
  | .table id =>
    let t := m.heap.table id
    .table (t.elements.map m.render) t.border t.entryCount
  | v => .other (m.render v)

/-- what is reported of a step that ended in this state -/
def answer (m : Machine) (watch : List String) (outcome : Except Error (List Value)) : Answer where
  outcome := outcome.map fun vs => vs.map m.render
  log := m.session.log.toList
  watched := watch.map m.watch

def clearLog (m : Machine) : Machine := { m with session := { m.session with log := #[] } }

end Machine

def answerStep (watch : List String) (s : Step) (m : Machine) : Answer × Machine :=
  match (runStep EvalM.call s).run m.clearLog with
  | .ok outcome m => (m.answer watch (.ok outcome.values), m)
  | .error e m => (m.answer watch (.error e), m)

def answerSteps (watch : List String) : List Step → Machine → List Answer
  | [], _ => []
  | s :: steps, m =>
    let (answer, m) := answerStep watch s m
    answer :: answerSteps watch steps m

/-- run a program on a fresh machine -/
def Program.run (p : Program) : List Answer := answerSteps p.watch p.steps (Machine.start p.limits)

end ScriptTables
