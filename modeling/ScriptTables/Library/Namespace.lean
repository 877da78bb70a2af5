import ScriptTables.Library.Insert
import ScriptTables.Library.Remove
import ScriptTables.Library.Move
import ScriptTables.Library.Transfer
import ScriptTables.Library.Sort

/-!
# The library as a whole

* `Host.library`         a function of the library on positional arguments;
* `EvalM.openLibrary`    the table of all functions, also kept as a global.
-/

namespace ScriptTables

/-- run a function of the library on positional arguments -/
def Host.library {σ : Type} (host : Host σ) (f : LibraryFunction) (args : List Value) :
    Action σ (List Value) :=
  match f with
  | .concat => host.concatFunction args
  | .insert => host.insertFunction args
  | .move => host.moveFunction args
  | .pack => host.packFunction args
  | .remove => host.removeFunction args
  | .sort => host.sortFunction args
  | .unpack => host.unpackFunction args

namespace EvalM

def libraryGlobal : String := "table"

def addFunctions : List LibraryFunction → Table → EvalM Table
  | [], t => pure t
  | f :: fs, t => do
    let id ← newFunction ⟨f.qualifiedName, .library f⟩
    addFunctions fs (t.setString f.name (.function id))

/-- a new table of all functions, also kept as a global -/
def openLibrary : EvalM TableId := do
  let t ← addFunctions LibraryFunction.all {}
  let id ← newTable t
  setGlobal libraryGlobal (.table id)
  pure id

end EvalM

end ScriptTables
