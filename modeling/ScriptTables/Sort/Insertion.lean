import ScriptTables.Sort.Slots

/-!
# Insertion sort

* `Slots.sink`            move a value down while it has to stand before the one below it;
* `Slots.insertionSort`   the slots `lo, ..., hi`, one after the other.
-/

namespace ScriptTables

namespace Slots

section
variable {σ : Type} (slots : Slots σ)

/-- move the value of slot `m` down by at most so many slots -/
def sink : Nat → Nat → Action σ Unit
  | 0, _ => pure ()
  | room + 1, m => do
    if ← slots.lessAt m (m - 1) then
      slots.swap m (m - 1)
      sink room (m - 1)

/-- sink the values of `n` slots, from slot `k` on, down to slot `lo` at most -/
def sinkAll (lo : Nat) : Nat → Nat → Action σ Unit
  | 0, _ => pure ()
  | n + 1, k => do
    slots.sink (k - lo) k
    sinkAll lo n (k + 1)

def insertionSort (lo hi : Nat) : Action σ Unit := slots.sinkAll lo (hi - lo) (lo + 1)

end

end Slots

end ScriptTables
