import ScriptTables.Library.Arguments

/-!
# Moving ranges

* `MoveRange`               a source range and where it goes;
* `MoveRange.fault?`        what is wrong with a range that is not empty;
* `Collection.copyUpward`, `Collection.copyDownward`   element by element, in either order;
* `Host.moveBetween`        in the order in which no element is overwritten before it was read;
* `Host.move`               the operation on values;
* `Host.moveFunction`       the function of the library.
-/

namespace ScriptTables

def greatestInteger : Int := 9223372036854775807

/-- the positions `first, ..., last` of a source, to go to `destination` and on -/
structure MoveRange where
  first : Int64
  last : Int64
  destination : Int64
  deriving DecidableEq, Repr

namespace MoveRange

def count (r : MoveRange) : Int := r.last.toInt - r.first.toInt + 1

def isEmpty (r : MoveRange) : Bool := decide (r.last < r.first)

/-- what is wrong with a range that is not empty: its count, or a position it would go to, is no
integer of 64 bits -/
def fault? (r : MoveRange) : Option Fault :=
  if ¬(0 < r.first.toInt ∨ r.last.toInt < greatestInteger + r.first.toInt) then
    some (.badArgument 3 "move" .tooManyToMove)
  else if greatestInteger - r.count + 1 < r.destination.toInt then
    some (.badArgument 4 "move" .destinationWrapAround)
  else none

/-- whether the destination starts outside of the source range or below all that is still to be
read -/
def isClear (r : MoveRange) : Bool :=
  decide (r.last < r.destination) || decide (r.destination ≤ r.first)

end MoveRange

section
variable {σ : Type} (host : Host σ)

namespace Collection

/-- copy `n` elements, from position `i` and on to position `j` and on -/
def copyUpward (source target : Collection) : Nat → Int → Int → Action σ Unit
  | 0, _, _ => pure ()
  | n + 1, i, j => do
    let v ← source.get host i
    target.set host j v
    copyUpward source target n (i + 1) (j + 1)

/-- copy `n` elements, from position `i` and on to position `j` and on, the last one first -/
def copyDownward (source target : Collection) (i j : Int) : Nat → Action σ Unit
  | 0 => pure ()
  | n + 1 => do
    let v ← source.get host (i + n)
    target.set host (j + n) v
    copyDownward source target i j n

end Collection

/-- Copy a range of one collection into another, or into the same one.  Where the destination starts
inside the source range of the same collection the copy runs from the end. -/
def Host.moveBetween (source : Collection) (r : MoveRange) (target : Collection) :
    Action σ Unit :=
  if r.isEmpty then pure ()
  else match r.fault? with
    | some fault => fail fault
    | none =>
      let n := r.count.toNat
      if r.isClear || !source.sameAs target then
        Collection.copyUpward host source target n r.first.toInt r.destination.toInt
      else Collection.copyDownward host source target r.first.toInt r.destination.toInt n

/-- copy a range of a value into another, or without one into itself; the result is where it went -/
def Host.move (source : Value) (r : MoveRange) (target : Option Value) : Action σ Value := do
  let readable ← host.checkCollection (some source) 1 "move" .reading
  let writable ← match target with
    | some target => host.checkCollection (some target) 5 "move" .writing
    | none => host.checkCollection (some source) 1 "move" .writing
  host.moveBetween readable r writable
  pure writable.value

/-- the arguments are source, first, last, destination and perhaps a target -/
def Host.moveFunction (args : List Value) : Action σ (List Value) := do
  let first ← checkInteger "move" args 2
  let last ← checkInteger "move" args 3
  let destination ← checkInteger "move" args 4
  let place := if isAbsent args 5 then 1 else 5
  let readable ← host.checkCollection (argument? args 1) 1 "move" .reading
  let writable ← host.checkCollection (argument? args place) place "move" .writing
  host.moveBetween readable ⟨first, last, destination⟩ writable
  pure [writable.value]

end

end ScriptTables
