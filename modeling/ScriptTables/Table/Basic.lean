import ScriptTables.Table.Key

/-!
# Tables

A table keeps the values under the keys `1, 2, ..., n` in an array, whose length `n` is its border,
and the rest as entries.  Two things are kept true of it:

* the array does not end in `nil`, so it shrinks when its last value is cleared;
* there is no entry under `n + 1`, so appending moves entries that follow on into the array.

* `Table.getKey`, `Table.setKey`   read and write under a key;
* `Table.get`, `Table.set`         the same under a value, which may name no key;
* `Table.ofList`                   a table with given values under `1, 2, ...`;
* `Table.border`                   the length of the array.
-/

namespace ScriptTables

structure Table where
  array : Array Value := #[]
  entries : Entries := ∅
  metatable : Option TableId := none

instance : Inhabited Table := ⟨{}⟩

/-! ## the array -/

/-- pop `nil` from the end, at most so many times -/
def popNils : Nat → Array Value → Array Value
  | 0, a => a
  | n + 1, a => if a.back? = some .nil then popNils n a.pop else a

def dropTrailingNils (a : Array Value) : Array Value := popNils a.size a

/-- write into an array at a place that it has; clearing the last place shortens the array -/
@[noinline] def writeSlot (a : Array Value) (i : Nat) (v : Value) : Array Value :=
  if v.isNil ∧ i + 1 = a.size then dropTrailingNils a.pop else a.setIfInBounds i v

theorem popNils_succ (n : Nat) (a : Array Value) :
    popNils (n + 1) a = if a.back? = some .nil then popNils n a.pop else a := rfl

namespace Table

def border (t : Table) : Nat := t.array.size

def entryCount (t : Table) : Nat := t.entries.size

def elements (t : Table) : List Value := t.array.toList

/-- the place in the array for an integer, if it has one there -/
def slot? (t : Table) (n : Int64) : Option Nat :=
  if 1 ≤ n.toInt ∧ n.toInt ≤ t.border then some (n.toInt.toNat - 1) else none

/-! ## reading -/

def getInteger (t : Table) (n : Int64) : Value :=
  match t.slot? n with
  | some i => t.array.getD i .nil
  | none => t.entries.find (.integer n)

def getKey (t : Table) : Key → Value
  | .integer n => t.getInteger n
  | k => t.entries.find k

/-- the value under what a value names, or `nil` -/
def get (t : Table) (k : Value) : Value :=
  match Key.ofValue? k with
  | .ok k => t.getKey k
  | .error _ => .nil

def getString (t : Table) (s : String) : Value := t.getKey (.string s)

/-! ## writing -/

/-- the entry that follows on the array -/
def nextEntry? (t : Table) : Option (Key × Value) := do
  let n ← int64OfInt? (t.border + 1)
  let v ← t.entries[Key.integer n]?
  pure (.integer n, v)

/-- move the entries that follow on the array into it, at most so many -/
def migrate : Nat → Table → Table
  | 0, t => t
  | n + 1, t =>
    match t.nextEntry? with
    | some (k, v) => migrate n { t with array := t.array.push v, entries := t.entries.erase k }
    | none => t

/-- append to the array, and move what follows on into it -/
def append (t : Table) (v : Value) : Table :=
  migrate t.entries.size { t with array := t.array.push v }

def setSlot (t : Table) (i : Nat) (v : Value) : Table :=
  { t with array := writeSlot t.array i v }

/-- write under an integer; `nil` removes what is there -/
def setInteger (t : Table) (n : Int64) (v : Value) : Table :=
  match t.slot? n with
  | some i => t.setSlot i v
  | none =>
    if n.toInt = t.border + 1 ∧ ¬v.isNil then t.append v
    else { t with entries := t.entries.put (.integer n) v }

def setKey (t : Table) (k : Key) (v : Value) : Table :=
  match k with
  | .integer n => t.setInteger n v
  | k => { t with entries := t.entries.put k v }

def set (t : Table) (k v : Value) : Except Fault Table :=
  (Key.ofValue? k).map fun k => t.setKey k v

def setString (t : Table) (s : String) (v : Value) : Table := t.setKey (.string s) v

/-! ## making -/

/-- the values under `1, 2, ...`, the `nil`s at the end left out -/
def ofList (vs : List Value) : Table := { array := dropTrailingNils vs.toArray }

/-! ## equations -/

theorem migrate_zero (t : Table) : migrate 0 t = t := rfl

theorem migrate_of_some {t : Table} {k : Key} {v : Value} (h : t.nextEntry? = some (k, v))
    (n : Nat) : migrate (n + 1) t
      = migrate n { t with array := t.array.push v, entries := t.entries.erase k } := by
  simp only [migrate, h]

theorem migrate_of_none {t : Table} (h : t.nextEntry? = none) (n : Nat) :
    migrate (n + 1) t = t := by
  simp only [migrate, h]

theorem getInteger_of_le {t : Table} {n : Int64} (h₁ : 1 ≤ n.toInt) (h₂ : n.toInt ≤ t.border) :
    t.getInteger n = t.array.getD (n.toInt.toNat - 1) .nil := by
  rw [getInteger, slot?, if_pos ⟨h₁, h₂⟩]

theorem getInteger_of_not_le {t : Table} {n : Int64} (h : ¬(1 ≤ n.toInt ∧ n.toInt ≤ t.border)) :
    t.getInteger n = t.entries.find (.integer n) := by
  rw [getInteger, slot?, if_neg h]

theorem getKey_integer (t : Table) (n : Int64) : t.getKey (.integer n) = t.getInteger n := rfl
theorem getKey_string (t : Table) (s : String) : t.getKey (.string s) = t.getString s := rfl

theorem get_of_ok {t : Table} {k : Value} {key : Key} (h : Key.ofValue? k = .ok key) :
    t.get k = t.getKey key := by
  rw [get, h]

theorem get_of_error {t : Table} {k : Value} {f : Fault} (h : Key.ofValue? k = .error f) :
    t.get k = .nil := by
  rw [get, h]

theorem set_of_ok {t : Table} {k v : Value} {key : Key} (h : Key.ofValue? k = .ok key) :
    t.set k v = .ok (t.setKey key v) := by
  rw [set, h]; rfl

theorem set_of_error {t : Table} {k v : Value} {f : Fault} (h : Key.ofValue? k = .error f) :
    t.set k v = .error f := by
  rw [set, h]; rfl

end Table

end ScriptTables
