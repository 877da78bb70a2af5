import ScriptTables.Value.Basic

/-!
# Errors

An error names what went wrong and, when it passed through an operation that reports it in its own
words, the faults behind it, nearest first.

* `ErrorKind`        the three kinds of error;
* `ArgumentReason`   why an argument of the right type is refused;
* `Fault`            what can go wrong;
* `Fault.kind`, `Fault.message`   its kind and wording;
* `Error`            a fault with the faults that caused it;
* `Error.wrap`       a fault caused by an error.
-/

namespace ScriptTables

/-! ## kinds -/

inductive ErrorKind where
  /-- a value has the wrong type, or lacks the hooks to act like one that has the right type -/
  | type
  /-- an argument is outside its bounds -/
  | argument
  /-- a limit was exceeded, or a callback failed -/
  | runtime
  deriving DecidableEq, Repr

def ErrorKind.name : ErrorKind → String
  | .type => "type"
  | .argument => "argument"
  | .runtime => "runtime"

/-! ## faults -/

/-- why an argument of the right type is refused -/
inductive ArgumentReason where
  | noIntegerRepresentation
  | positionOutOfBounds
  | tooManyToMove
  | destinationWrapAround
  | arrayTooBig
  | other (text : String)
  deriving DecidableEq, Repr

def ArgumentReason.text : ArgumentReason → String
  | .noIntegerRepresentation => "number has no integer representation"
  | .positionOutOfBounds => "position out of bounds"
  | .tooManyToMove => "too many elements to move"
  | .destinationWrapAround => "destination wrap around"
  | .arrayTooBig => "array too big"
  | .other text => text

inductive Fault where
  | cannotIndex (type : TypeName)
  | cannotMeasure (type : TypeName)
  | cannotCall (type : TypeName)
  | cannotCompare (left right : TypeName)
  | cannotCarryMetatable (type : TypeName)
  | lengthNotInteger
  | cannotJoin (type : TypeName) (index : Int)
  /-- an argument has the wrong type; nothing was got when it was not supplied at all -/
  | wrongType (position : Nat) (function expected : String) (got : Option TypeName)
  | badArgument (position : Nat) (function : String) (reason : ArgumentReason)
  | wrongArgumentCount (function : String)
  | keyIsNil
  | keyIsNaN
  | readChainTooLong
  | writeChainTooLong
  | stackOverflow
  | tooManyResults
  | comparatorFailed (message : String)
  /-- a fault raised by a script, in its own words -/
  | raised (kind : ErrorKind) (message : String)
  deriving DecidableEq, Repr

namespace Fault

def kind : Fault → ErrorKind
  | .cannotIndex _ => .type
  | .cannotMeasure _ => .type
  | .cannotCall _ => .type
  | .cannotCompare _ _ => .type
  | .cannotCarryMetatable _ => .type
  | .lengthNotInteger => .type
  | .cannotJoin _ _ => .type
  | .wrongType _ _ _ _ => .type
  | .badArgument _ _ _ => .argument
  | .wrongArgumentCount _ => .argument
  | .keyIsNil => .runtime
  | .keyIsNaN => .runtime
  | .readChainTooLong => .runtime
  | .writeChainTooLong => .runtime
  | .stackOverflow => .runtime
  | .tooManyResults => .runtime
  | .comparatorFailed _ => .runtime
  | .raised kind _ => kind

/-- the start of the texts about one argument -/
def argumentText (position : Nat) (function : String) : String :=
  "bad argument #" ++ position.repr ++ " to '" ++ function ++ "' "

/-- what was got in place of an argument -/
def gotText : Option TypeName → String
  | none => "no value"
  | some type => type.text

def message : Fault → String
  | .cannotIndex type => "attempt to index a " ++ type.text ++ " value"
  | .cannotMeasure type => "attempt to get length of a " ++ type.text ++ " value"
  | .cannotCall type => "attempt to call a " ++ type.text ++ " value"
  | .cannotCompare left right =>
    if left = right then "attempt to compare two " ++ left.text ++ " values"
    else "attempt to compare " ++ left.text ++ " with " ++ right.text
  | .cannotCarryMetatable type => "cannot set a metatable on a " ++ type.text ++ " value"
  | .lengthNotInteger => "object length is not an integer"
  | .cannotJoin type index =>
    "invalid value (" ++ type.text ++ ") at index " ++ index.repr ++ " in table for 'concat'"
  | .wrongType position function expected got =>
    argumentText position function ++ "(" ++ expected ++ " expected, got " ++ gotText got ++ ")"
  | .badArgument position function reason =>
    argumentText position function ++ "(" ++ reason.text ++ ")"
  | .wrongArgumentCount function => "wrong number of arguments to '" ++ function ++ "'"
  | .keyIsNil => "index is nil"
  | .keyIsNaN => "index is NaN"
  | .readChainTooLong => "'__index' chain too long; possible loop"
  | .writeChainTooLong => "'__newindex' chain too long; possible loop"
  | .stackOverflow => "stack overflow"
  | .tooManyResults => "too many results to unpack"
  | .comparatorFailed message => "error in sort comparator: " ++ message
  | .raised _ message => message

/-- the message behind the name of its kind -/
def display (f : Fault) : String := f.kind.name ++ " error: " ++ f.message

end Fault

/-! ## errors -/

/-- a fault with the faults that caused it, nearest first -/
structure Error where
  fault : Fault
  causes : List Fault := []
  deriving DecidableEq, Repr

namespace Error

def wrap (e : Error) (fault : Fault) : Error := ⟨fault, e.fault :: e.causes⟩

end Error

/-! ## actions -/

/-- something that may change a state and may fail; a failure keeps the changes made before it -/
abbrev Action (σ : Type) := EStateM Error σ

def fail {σ α : Type} (fault : Fault) : Action σ α := throw ⟨fault, []⟩

theorem fail_bind {σ α β : Type} (fault : Fault) (next : α → Action σ β) :
    (fail fault >>= next) = fail fault := rfl

theorem run_bind {σ α β : Type} (first : Action σ α) (next : α → Action σ β) (s : σ) :
    (first >>= next).run s = match first.run s with
      | .ok a s => (next a).run s
      | .error e s => .error e s := by
  simp only [EStateM.run, bind, EStateM.bind]
  cases first s <;> rfl

theorem run_bind_of_ok {σ α β : Type} {first : Action σ α} {s t : σ} {a : α}
    (h : first.run s = .ok a t) (next : α → Action σ β) :
    (first >>= next).run s = (next a).run t := by
  rw [run_bind, h]

theorem run_tryCatch {σ α : Type} (action : Action σ α) (handler : Error → Action σ α) (s : σ) :
    (tryCatch action handler).run s = match action.run s with
      | .ok a s => .ok a s
      | .error e s => (handler e).run s := by
  show EStateM.tryCatch action handler s = _
  delta EStateM.tryCatch EStateM.run
  cases action s <;> rfl

end ScriptTables
