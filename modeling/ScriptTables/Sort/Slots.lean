import ScriptTables.Fault

/-!
# Slots to be sorted

Sorting touches its list only through numbered slots and asks only one question about values.  All
of that may change a state, fail, and answer inconsistently, so nothing is assumed of it here.

* `Slots σ`        reading a slot, writing a slot, and the question whether a value goes first;
* `Slots.lessAt`   the question about the values of two slots;
* `Slots.swap`     the values of two slots exchanged.
-/

namespace ScriptTables

structure Slots (σ : Type) where
  get : Nat → Action σ Value
  set : Nat → Value → Action σ Unit
  /-- whether the first value has to stand before the second -/
  less : Value → Value → Action σ Bool

namespace Slots

section
variable {σ : Type} (slots : Slots σ)

/-- whether the value of one slot has to stand before that of another -/
def lessAt (i j : Nat) : Action σ Bool := do
  let a ← slots.get i
  let b ← slots.get j
  slots.less a b

/-- exchange the values of two slots; both are read before either is written -/
def swap (i j : Nat) : Action σ Unit := do
  let a ← slots.get i
  let b ← slots.get j
  slots.set i b
  slots.set j a

def swapIfLess (i j : Nat) : Action σ Unit := do
  if ← slots.lessAt i j then slots.swap i j

end

end Slots

end ScriptTables
