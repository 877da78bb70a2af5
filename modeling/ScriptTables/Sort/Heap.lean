import ScriptTables.Sort.Slots

/-!
# Heap sort

The slots `base, base + 1, ...` hold a heap: the children of node `i` are the nodes `2 * i + 1` and
`2 * i + 2`, and no node has to stand before its children once the heap is in order.

* `Slots.siftDown`    move the value of a node down to where it belongs;
* `Slots.heapify`     put the nodes in order, the last parent first;
* `Slots.drain`       move the first node behind the heap, which shrinks, again and again;
* `Slots.heapSort`    the slots `lo, ..., hi`.
-/

namespace ScriptTables

namespace Slots

section
variable {σ : Type} (slots : Slots σ)

/-- the child of a node with two children that does not have to stand before the other; the only
child, if there is no other among the first `len` nodes -/
def greaterChild (base root len : Nat) : Action σ Nat := do
  let child := 2 * root + 1
  if child + 1 < len then
    if ← slots.lessAt (base + child) (base + child + 1) then pure (child + 1) else pure child
  else pure child

/-- move the value of node `root` down among the first `len` nodes, at most so many times; the node
number more than doubles each time, so `len` times is always enough -/
def siftDownWithin (base len : Nat) : Nat → Nat → Action σ Unit
  | 0, _ => pure ()
  | steps + 1, root =>
    if 2 * root + 1 < len then do
      let child ← slots.greaterChild base root len
      if ← slots.lessAt (base + root) (base + child) then
        slots.swap (base + root) (base + child)
        siftDownWithin base len steps child
    else pure ()

def siftDown (base root len : Nat) : Action σ Unit := slots.siftDownWithin base len len root

/-- sift down the nodes below `n`, the last one first -/
def heapify (base len : Nat) : Nat → Action σ Unit
  | 0 => pure ()
  | root + 1 => do
    slots.siftDown base root len
    heapify base len root

/-- exchange the first node with the last and shrink the heap, until one node is left -/
def drain (base : Nat) : Nat → Action σ Unit
  | 0 => pure ()
  | last + 1 => do
    slots.swap base (base + (last + 1))
    slots.siftDown base 0 (last + 1)
    drain base last

def heapSort (lo hi : Nat) : Action σ Unit := do
  let len := hi - lo + 1
  slots.heapify lo len (len / 2)
  slots.drain lo (len - 1)

end

end Slots

end ScriptTables
