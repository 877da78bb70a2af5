import ScriptTables.Sort.Slots

/-!
# Partitioning

A range of at least three slots is split around the median of its first, middle and last value.  The
pivot is parked next to the last slot; two cursors then run towards each other over the values that
already stand on their side, and exchange the pairs that do not.

* `Slots.medianToMiddle`   put first, middle and last value in order;
* `Slots.scanUp`           the first slot from the left whose value is not below the pivot;
* `Slots.scanDown`         the first slot from the right whose value is not above it;
* `Slots.cross`            let the cursors run until they meet;
* `Slots.partition`        the final place of the pivot.
-/

namespace ScriptTables

namespace Slots

section
variable {σ : Type} (slots : Slots σ)

/-- put the values of three slots in order -/
def medianToMiddle (lo mid hi : Nat) : Action σ Unit := do
  slots.swapIfLess mid lo
  if ← slots.lessAt hi mid then
    slots.swap hi mid
    slots.swapIfLess mid lo

/-- go up from slot `i` over values that have to stand before the pivot, by at most so many -/
def scanUp (pivot : Value) : Nat → Nat → Action σ Nat
  | 0, i => pure i
  | room + 1, i => do
    let v ← slots.get i
    if ← slots.less v pivot then scanUp pivot room (i + 1) else pure i

/-- go down from slot `j` over values that the pivot has to stand before, by at most so many -/
def scanDown (pivot : Value) : Nat → Nat → Action σ Nat
  | 0, j => pure j
  | room + 1, j => do
    let v ← slots.get j
    if ← slots.less pivot v then scanDown pivot room (j - 1) else pure j

/-- Move the cursors on by at least one slot each and exchange what they stop at, until they have
passed each other.  The left cursor stays below `top`, the right one above `lo`, so there are at most
`top - lo` laps. -/
def cross (pivot : Value) (lo top : Nat) : Nat → Nat → Nat → Action σ Nat
  | 0, i, _ => pure i
  | laps + 1, i, j => do
    let i ← slots.scanUp pivot (top - (i + 1)) (i + 1)
    let j ← slots.scanDown pivot (j - 1 - lo) (j - 1)
    if j < i then pure i
    else
      slots.swap i j
      cross pivot lo top laps i j

/-- split the slots `lo, ..., hi` and return the final slot of the pivot, which is neither end -/
def partition (lo hi : Nat) : Action σ Nat := do
  let mid := lo + (hi - lo) / 2
  slots.medianToMiddle lo mid hi
  let pivot ← slots.get mid
  slots.swap mid (hi - 1)
  let p ← slots.cross pivot lo (hi - 1) (hi - lo) lo (hi - 1)
  slots.swap (hi - 1) p
  pure p

end

end Slots

end ScriptTables
