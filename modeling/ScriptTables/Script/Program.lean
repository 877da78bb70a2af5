import ScriptTables.Fault
import ScriptTables.Library.Capability
import ScriptTables.Library.Function

/-!
# Scripts

A script is a list of steps; a function of a script is a name and a list of steps.  A step runs an
operation on operands and may keep its first result under a name.

* `Expr`    what an operand is: a value, a variable, an argument, a step's result, a new object;
* `Item`    an operand in a list, or all arguments from one on;
* `Op`      the operations: those that direct the run, and those that work on values, which are
            grouped by how many operands they take (`Nullary`, `Unary`, `Binary`, `Ternary`);
* `Step`    an operation and the name for its first result.
-/

namespace ScriptTables

/-! ## operations on values -/

inductive Arithmetic where
  | add
  | sub
  | mul
  | mod
  deriving DecidableEq, Repr

inductive Nullary where
  | globals
  | limits
  | openLibrary
  | libraryNames
  | libraryFunction (name : String)
  | getGlobal (name : String)
  | containsCapabilities (a b : Capabilities)
  deriving DecidableEq, Repr

inductive Unary where
  | typeName
  | isNil
  | isTruthy
  | toInteger
  | toText
  | display
  | inspect
  | metatable
  | floatToInteger
  | formatFloat
  | rawGetString (key : String)
  | border
  | entryCount
  | clone
  | elements
  | rawLength
  | length
  | checkStack
  | metamethod (event : String)
  | setGlobal (name : String)
  deriving DecidableEq, Repr

inductive Binary where
  | arithmetic (f : Arithmetic)
  | equal
  | hashEqual
  | rawGet
  | rawGetInteger
  | rawSetString (key : String)
  | index
  | getInteger
  | lessThan
  | setMetatable
  | remove
  | sort
  deriving DecidableEq, Repr

inductive Ternary where
  | rawSet
  | rawSetInteger
  | setIndex
  | setInteger
  | insert
  | concat (separator : String)
  | unpack
  deriving DecidableEq, Repr

/-- an argument to be checked: its place in a call, and what it is needed for -/
structure CheckRequest where
  position : Nat := 1
  function : String := ""
  required : Capabilities := {}
  deriving DecidableEq, Repr

/-! ## scripts -/

mutual

inductive Expr where
  | value (v : Value)
  /-- the local of the running function, else the variable of the session, else `nil` -/
  | var (name : String)
  /-- an argument of the running function, or `nil` -/
  | argument (n : Nat)
  /-- the first result of a step -/
  | result (s : Step)
  /-- a new table with given elements, then raw writes, then a metatable -/
  | table (items : List Item) (entries : List (Expr × Expr)) (metatable : Option Expr)
  | userdata (metatable : Expr)
  | function (name : String) (body : List Step)

inductive Item where
  | single (e : Expr)
  /-- all arguments of the running function from one on -/
  | rest (n : Nat)

inductive Op where
  | give (e : Expr)
  | log (items : List Item)
  | branch (condition : Expr) (whenTrue whenFalse : List Step)
  /-- run the body with the counter set to `1, 2, ..., n` -/
  | loop (n : Nat) (counter : String) (body : List Step)
  /-- end the running function with results -/
  | finish (items : List Item)
  /-- run the body and tell whether it raised an error, and which -/
  | attempt (body : List Step)
  | count (s : Step)
  | raise (fault : Fault) (around : List Fault)
  /-- raise the fault of a wrong type; without an operand nothing was supplied -/
  | raiseWrongType (position : Nat) (function expected : String) (got : Option Expr)
      (around : List Fault)
  | nullary (op : Nullary)
  | unary (op : Unary) (a : Expr)
  | binary (op : Binary) (a b : Expr)
  | ternary (op : Ternary) (a b c : Expr)
  | call (callee : Expr) (arguments : List Item)
  /-- a call of which only the first result is kept -/
  | callFirst (callee : Expr) (arguments : List Item)
  | library (f : LibraryFunction) (arguments : List Item)
  | pack (items : List Item)
  | move (source : Expr) (target : Option Expr) (first last destination : Expr)
  | check (request : CheckRequest) (value : Option Expr)
  | collectionBorder (request : CheckRequest) (value : Option Expr)
  | collectionGet (request : CheckRequest) (value : Option Expr) (key : Expr)
  | collectionSet (request : CheckRequest) (value : Option Expr) (key new : Expr)
  | sameCollection (request : CheckRequest) (a b : Option Expr)

inductive Step where
  | mk (op : Op) (target : Option String)

end

end ScriptTables
