import ScriptTables.Value.Coercion
import ScriptTables.Library.Collection

/-!
# Arguments of library functions

Arguments are counted from one, as error texts count them.  One that was not supplied is told apart
from one that is `nil`, although both leave an optional argument at its default.

* `argument?`            an argument, if it was supplied;
* `checkInteger`         an argument that has to be an integer, or stand for one;
* `optionalInteger`, `optionalText`, `optionalFunction`   arguments that may be left out.
-/

namespace ScriptTables

def argument? (args : List Value) : Nat → Option Value
  | 0 => none
  | position + 1 => args[position]?

def argumentOrNil (args : List Value) (position : Nat) : Value :=
  (argument? args position).getD .nil

/-- whether an argument is `nil` or was not supplied -/
def isAbsent (args : List Value) (position : Nat) : Bool := (argumentOrNil args position).isNil

theorem argument?_eq_none {args : List Value} {position : Nat} (h : position ≠ 0) :
    argument? args position = none ↔ args.length < position := by
  cases position with
  | zero => exact absurd rfl h
  | succ n => rw [argument?, List.getElem?_eq_none_iff, Nat.lt_succ_iff]

section
variable {σ : Type} (function : String) (args : List Value) (position : Nat)

/-! ## faults -/

def mismatch (expected : String) : Fault :=
  .wrongType position function expected ((argument? args position).map Value.typeName)

/-- the fault of an argument that is no integer: a number that has no integer value, or no number -/
def integerFault : Fault :=
  if (argumentOrNil args position).isNumeric then
    .badArgument position function .noIntegerRepresentation
  else mismatch function args position "number"

/-! ## decoding -/

/-- an argument that has to be an integer, or stand for one -/
def checkInteger : Action σ Int64 :=
  match (argumentOrNil args position).toInteger? with
  | some n => pure n
  | none => fail (integerFault function args position)

def optionalInteger : Action σ (Option Int64) :=
  if isAbsent args position then pure none
  else do
    let n ← checkInteger function args position
    pure (some n)

/-- a text that may be left out; a number counts as the text it is written as -/
def optionalText : Action σ (Option String) :=
  if isAbsent args position then pure none
  else match (argumentOrNil args position).toText? with
    | some s => pure (some s)
    | none => fail (mismatch function args position "string")

def optionalFunction : Action σ (Option Value) :=
  match argumentOrNil args position with
  | .nil => pure none
  | .function f => pure (some (.function f))
  | _ => fail (mismatch function args position "function")

end

end ScriptTables
