import ScriptTables.Library.Arguments

/-!
# Inserting

* `Collection.shiftUp`     move elements up by one, the last one first;
* `Collection.shiftCount`  how many are moved;
* `Collection.insertAt`    put a value at a position and move up what stands there and behind it;
* `Host.insert`            the operation on a value;
* `Host.insertFunction`    the function of the library.
-/

namespace ScriptTables

section
variable {σ : Type} (host : Host σ)

namespace Collection

/-- copy `n` elements up by one, the first copy going to position `top` and the others below it -/
def shiftUp (c : Collection) : Nat → Int → Action σ Unit
  | 0, _ => pure ()
  | n + 1, top => do
    let v ← c.get host (top - 1)
    c.set host top v
    shiftUp c n (top - 1)

/-- the first empty position: the border's successor, in 64 bits -/
def appendPosition (border : Int64) : Int := (border + 1).toInt

/-- How many positions there are in `position + 1, ..., border + 1`, both ends taken in 64 bits. -/
def shiftCount (border position : Int64) : Nat :=
  (appendPosition border - (position + 1).toInt + 1).toNat

/-- Insert at a position of `1, ..., border + 1`, or without one at the end. -/
def insertAt (c : Collection) (border : Int64) (position : Option Int64) (v : Value) :
    Action σ Unit :=
  let last := appendPosition border
  match position with
  | none => c.set host last v
  | some position =>
    let p := position.toInt
    if p < 1 ∨ last < p then fail (.badArgument 2 "insert" .positionOutOfBounds)
    else do
      c.shiftUp host (shiftCount border position) last
      c.set host p v

end Collection

def Host.insert (list : Value) (position : Option Int64) (v : Value) : Action σ Unit := do
  let (c, border) ← host.collectionWithBorder (some list) 1 "insert" .readingWriting
  c.insertAt host border position v

/-- the arguments are list and value, or list, position and value -/
def Host.insertFunction (args : List Value) : Action σ (List Value) := do
  let (c, border) ← host.collectionWithBorder (argument? args 1) 1 "insert" .readingWriting
  match args with
  | [_, v] => c.insertAt host border none v
  | [_, _, v] => do
    let position ← checkInteger "insert" args 2
    c.insertAt host border (some position) v
  | _ => fail (.wrongArgumentCount "insert")
  pure []

end

end ScriptTables
