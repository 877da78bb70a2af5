import ScriptTables.Machine.Heap

/-!
# The session of a script

What a script keeps beside the heap: its variables, the frame of the running function, the names by
which objects are shown, and the lines logged.

* `Bindings`   values kept under names;
* `Frame`      the arguments and locals of a running function;
* `Shown`      a value as it is reported: an object by its label;
* `Session`    all of it; `Session.find`, `Session.bind`, `Session.render`.
-/

namespace ScriptTables

/-! ## bindings -/

abbrev Bindings := List (String × Value)

namespace Bindings

def find? (b : Bindings) (name : String) : Option Value := b.lookup name

/-- bind a name, in the place of its old binding if it has one -/
def bind : Bindings → String → Value → Bindings
  | [], name, v => [(name, v)]
  | (other, w) :: rest, name, v =>
    if name = other then (name, v) :: rest else (other, w) :: bind rest name v

end Bindings

/-- the arguments and locals of a running function -/
structure Frame where
  arguments : List Value
  locals : Bindings := []

/-! ## reports -/

/-- A value as it is reported.  An object is shown by its label if it has one, else by its kind, a
function also by its own name. -/
inductive Shown where
  | nil
  | boolean (b : Bool)
  | integer (n : Int64)
  | number (x : Binary64)
  | string (s : String)
  | labelled (label : String)
  | table
  | userdata
  | function (name : String)
  deriving DecidableEq, Repr

/-! ## sessions -/

structure Session where
  bindings : Bindings := []
  /-- the labels of objects: the name of the first variable each was bound to -/
  labels : List (Value × String) := []
  log : Array (List Shown) := #[]
  /-- the frame of the running function; none outside of functions -/
  frame : Option Frame := none

def Value.isObject : Value → Bool
  | .table _ | .function _ | .userdata _ => true
  | _ => false

namespace Session

/-- what a name stands for: a local, else a variable, else nothing -/
def find (s : Session) (name : String) : Value :=
  match s.frame.bind fun f => f.locals.find? name with
  | some v => v
  | none => (s.bindings.find? name).getD .nil

def arguments (s : Session) : List Value :=
  match s.frame with
  | some f => f.arguments
  | none => []

/-- label an object that has no label yet -/
def label (s : Session) (name : String) (v : Value) : Session :=
  if v.isObject ∧ (s.labels.lookup v).isNone then { s with labels := s.labels ++ [(v, name)] }
  else s

/-- Bind a name: in a function as a local, outside as a variable, which also labels the object that
it is bound to. -/
def bind (s : Session) (name : String) (v : Value) : Session :=
  match s.frame with
  | some f => { s with frame := some { f with locals := f.locals.bind name v } }
  | none => { s with bindings := s.bindings.bind name v }.label name v

def showUnlabelled (h : Heap) : Value → Shown
  | .nil => .nil
  | .boolean b => .boolean b
  | .integer n => .integer n
  | .number x => .number x
  | .string s => .string s
  | .table _ => .table
  | .function id => .function (h.function id).name
  | .userdata _ => .userdata

def render (s : Session) (h : Heap) (v : Value) : Shown :=
  match if v.isObject then s.labels.lookup v else none with
  | some label => .labelled label
  | none => showUnlabelled h v

end Session

end ScriptTables
