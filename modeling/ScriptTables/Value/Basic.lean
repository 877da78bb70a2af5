import ScriptTables.Numeric.Binary64

/-!
# Values

A value is plain data or the name of an object on the heap.  Two values name the same object
exactly when they are equal, so identity needs no notion of its own.

* `TableId`, `FunctionId`, `UserdataId`   the names of objects;
* `Value`                                 the values;
* `TypeName`                              the types as scripts see them; both kinds of number are one.
-/

namespace ScriptTables

/-! ## names of objects -/

structure TableId where
  index : Nat
  deriving DecidableEq, Repr

structure FunctionId where
  index : Nat
  deriving DecidableEq, Repr

structure UserdataId where
  index : Nat
  deriving DecidableEq, Repr

/-! ## values -/

inductive Value where
  /-- the absence of a value -/
  | nil
  | boolean (b : Bool)
  | integer (n : Int64)
  | number (x : Binary64)
  | string (s : String)
  | table (id : TableId)
  | function (id : FunctionId)
  /-- an opaque object, which can act like a table only through the hooks of its metatable -/
  | userdata (id : UserdataId)
  deriving DecidableEq, Repr

instance : Inhabited Value := ⟨.nil⟩

/-! ## types -/

/-- the type of a value, as scripts and error texts name it -/
inductive TypeName where
  | nil
  | boolean
  | number
  | string
  | table
  | function
  | userdata
  deriving DecidableEq, Repr

def TypeName.text : TypeName → String
  | .nil => "nil"
  | .boolean => "boolean"
  | .number => "number"
  | .string => "string"
  | .table => "table"
  | .function => "function"
  | .userdata => "userdata"

namespace Value

def typeName : Value → TypeName
  | .nil => .nil
  | .boolean _ => .boolean
  | .integer _ => .number
  | .number _ => .number
  | .string _ => .string
  | .table _ => .table
  | .function _ => .function
  | .userdata _ => .userdata

def isNil : Value → Bool
  | .nil => true
  | _ => false

/-- only `nil` and `false` are not true -/
def isTruthy : Value → Bool
  | .nil => false
  | .boolean b => b
  | _ => true

theorem isNil_iff {v : Value} : v.isNil = true ↔ v = .nil := by
  cases v <;> simp [isNil]

theorem isNil_eq_false_iff {v : Value} : v.isNil = false ↔ v ≠ .nil := by
  cases v <;> simp [isNil]

/-- a table or nothing, from a value that names a metatable -/
def table? : Value → Option TableId
  | .table id => some id
  | _ => none

end Value

def firstOf (results : List Value) : Value := results.headD .nil

end ScriptTables
