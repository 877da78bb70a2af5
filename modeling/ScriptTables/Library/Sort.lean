import ScriptTables.Library.Arguments
import ScriptTables.Sort.Range

/-!
# Sorting a list

* `Host.precedes`       the question of the sort: a comparator, or the order of the host;
* `Collection.slots`    the elements of a collection as slots;
* `Host.sort`           the operation on values;
* `Host.sortFunction`   the function of the library.
-/

namespace ScriptTables

section
variable {σ : Type} (host : Host σ)

/-- Whether a value has to stand before another: what a comparator answers, or the order of the host.
An error of a comparator becomes the cause of an error that says so. -/
def Host.precedes (comparator : Option Value) (a b : Value) : Action σ Bool :=
  match comparator with
  | none => host.lessThan a b
  | some f => do
    let answer ← tryCatch (host.call f [a, b]) fun e =>
      throw (e.wrap (.comparatorFailed e.fault.message))
    pure answer.isTruthy

namespace Collection

def slots (c : Collection) (comparator : Option Value) : Slots σ where
  get i := c.get host i
  set i v := c.set host i v
  less a b := host.precedes comparator a b

/-- a list is sorted only if its border is below this -/
def sortableBorder : Int := 2147483647

def sortElements (c : Collection) (border : Int64) (comparator : Option Value) : Action σ Unit :=
  if border.toInt ≤ 1 then pure ()
  else if sortableBorder ≤ border.toInt then fail (.badArgument 1 "sort" .arrayTooBig)
  else (c.slots host comparator).sort border.toInt.toNat

end Collection

/-- sort a list by a comparator, or without one by the order of the host -/
def Host.sort (list comparator : Value) : Action σ Unit := do
  let (c, border) ← host.collectionWithBorder (some list) 1 "sort" .readingWriting
  match comparator with
  | .nil => c.sortElements host border none
  | .function f => c.sortElements host border (some (.function f))
  | other => fail (.wrongType 2 "sort" "function" (some other.typeName))

def Host.sortFunction (args : List Value) : Action σ (List Value) := do
  let (c, border) ← host.collectionWithBorder (argument? args 1) 1 "sort" .readingWriting
  let comparator ← optionalFunction "sort" args 2
  c.sortElements host border comparator
  pure []

end

end ScriptTables
