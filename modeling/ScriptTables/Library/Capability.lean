/-!
# Capabilities of a collection

What an operation needs from an argument that stands for a table: elements read, elements written,
a length.  Each has a hook that provides it on a value that is not a table.

* `Capabilities`            a set of the three;
* `Capabilities.contains`   inclusion;
* `Capabilities.hooks`      the hooks that provide a set.
-/

namespace ScriptTables

/-! ## the hooks -/

def indexHook : String := "__index"
def newIndexHook : String := "__newindex"
def lengthHook : String := "__len"
def lessHook : String := "__lt"
def callHook : String := "__call"

/-! ## sets of capabilities -/

structure Capabilities where
  read : Bool := false
  write : Bool := false
  length : Bool := false
  deriving DecidableEq, Repr

namespace Capabilities

def reading : Capabilities := ⟨true, false, false⟩
def writing : Capabilities := ⟨false, true, false⟩
def measuring : Capabilities := ⟨false, false, true⟩
def readingWriting : Capabilities := ⟨true, true, false⟩

def union (a b : Capabilities) : Capabilities :=
  ⟨a.read || b.read, a.write || b.write, a.length || b.length⟩

def contains (a b : Capabilities) : Bool :=
  (!b.read || a.read) && (!b.write || a.write) && (!b.length || a.length)

/-- to read elements is also to ask how many there are -/
def closed (a : Capabilities) : Capabilities :=
  if a.read then a.union measuring else a

def hooks (a : Capabilities) : List String :=
  (if a.read then [indexHook] else []) ++ (if a.write then [newIndexHook] else [])
    ++ (if a.length then [lengthHook] else [])

end Capabilities

end ScriptTables
