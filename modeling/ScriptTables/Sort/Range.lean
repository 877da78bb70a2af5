import ScriptTables.Sort.Insertion
import ScriptTables.Sort.Heap
import ScriptTables.Sort.Partition

/-!
# Sorting a range

Ranges are partitioned until they are short, and short ones are sorted by insertion.  A budget bounds
how deep partitions are nested; a range that is still long when it is used up is sorted as a heap, so
an inconsistent order cannot make the work run away.  Equal values may change places.

* `Slots.sortRange`   the slots `lo, ..., hi`, with a budget;
* `depthBudget`       the budget for so many values: twice the count of binary digits;
* `Slots.sort`        the slots `1, ..., n`.
-/

namespace ScriptTables

/-- a range whose last slot is so far from its first is partitioned -/
def partitionThreshold : Nat := 12

/-- twice the count of binary digits -/
def depthBudget (n : Nat) : Nat := 2 * (n.log2 + 1)

namespace Slots

section
variable {σ : Type} (slots : Slots σ)

/-- sort the slots `lo, ..., hi`; of the two sides of a partition the shorter one goes first -/
def sortRange : Nat → Nat → Nat → Action σ Unit
  | 0, lo, hi =>
    if lo + partitionThreshold ≤ hi then slots.heapSort lo hi else slots.insertionSort lo hi
  | depth + 1, lo, hi =>
    if lo + partitionThreshold ≤ hi then do
      let p ← slots.partition lo hi
      if p - lo < hi - p then
        sortRange depth lo (p - 1)
        sortRange depth (p + 1) hi
      else
        sortRange depth (p + 1) hi
        sortRange depth lo (p - 1)
    else slots.insertionSort lo hi

def sort (n : Nat) : Action σ Unit := slots.sortRange (depthBudget n) 1 n

end

end Slots

end ScriptTables
