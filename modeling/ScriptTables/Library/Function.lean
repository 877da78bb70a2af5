/-!
# The functions of the library

* `LibraryFunction`           the seven functions;
* `LibraryFunction.name`      how scripts call them;
* `LibraryFunction.ofName?`   the function of a name.
-/

namespace ScriptTables

inductive LibraryFunction where
  | concat
  | insert
  | move
  | pack
  | remove
  | sort
  | unpack
  deriving DecidableEq, Repr

namespace LibraryFunction

def all : List LibraryFunction := [.concat, .insert, .move, .pack, .remove, .sort, .unpack]

def name : LibraryFunction → String
  | .concat => "concat"
  | .insert => "insert"
  | .move => "move"
  | .pack => "pack"
  | .remove => "remove"
  | .sort => "sort"
  | .unpack => "unpack"

/-- the name of the function as a value of the library's namespace -/
def qualifiedName (f : LibraryFunction) : String := "table." ++ f.name

def ofName? (s : String) : Option LibraryFunction := all.find? fun f => f.name == s

theorem ofName?_name (f : LibraryFunction) : ofName? f.name = some f := by
  cases f <;> decide

theorem mem_all (f : LibraryFunction) : f ∈ all := by
  cases f <;> decide

end LibraryFunction

end ScriptTables
