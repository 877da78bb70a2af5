import ScriptTables.Library.Arguments

/-!
# Removing

* `Collection.shiftDown`   move elements down by one, the first one first;
* `Collection.removeAt`    take the element at a position and close the gap;
* `Host.remove`            the operation on a value;
* `Host.removeFunction`    the function of the library.
-/

namespace ScriptTables

section
variable {σ : Type} (host : Host σ)

namespace Collection

/-- copy `n` elements down by one, the first copy going to position `bottom` and the others above
it -/
def shiftDown (c : Collection) : Nat → Int → Action σ Unit
  | 0, _ => pure ()
  | n + 1, bottom => do
    let v ← c.get host (bottom + 1)
    c.set host bottom v
    shiftDown c n (bottom + 1)

/-- whether removing at a position does anything: at the border itself, or within
`1, ..., border + 1`, whose end is computed in 64 bits -/
def isRemovable (border position : Int64) : Bool :=
  position == border || (decide (1 ≤ position.toInt) && decide (position ≤ border + 1))

/-- Remove the element at a position, or without one the last, and return it.  At a position that
has nothing to remove it does nothing, so that removing from an empty list is harmless. -/
def removeAt (c : Collection) (border : Int64) (position : Option Int64) :
    Action σ (Option Value) :=
  let position := position.getD border
  if isRemovable border position then do
    let p := position.toInt
    let steps := (border.toInt - p).toNat
    let removed ← c.get host p
    c.shiftDown host steps p
    c.set host (p + steps) .nil
    pure (some removed)
  else pure none

end Collection

def Host.remove (list : Value) (position : Option Int64) : Action σ (Option Value) := do
  let (c, border) ← host.collectionWithBorder (some list) 1 "remove" .readingWriting
  c.removeAt host border position

/-- the arguments are a list and perhaps a position; the result is the element, if any -/
def Host.removeFunction (args : List Value) : Action σ (List Value) := do
  let (c, border) ← host.collectionWithBorder (argument? args 1) 1 "remove" .readingWriting
  let position ← optionalInteger "remove" args 2
  let removed ← c.removeAt host border position
  pure removed.toList

end

end ScriptTables
