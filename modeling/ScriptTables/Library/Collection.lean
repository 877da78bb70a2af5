import ScriptTables.Library.Host

/-!
# Collections

An argument that an operation can work on element by element: a table, or a value whose metatable
itself holds a hook for everything the operation needs.  A hook that the metatable only inherits
from a metatable of its own does not count.

* `Collection`               a checked argument;
* `Host.checkCollection`     the check;
* `Collection.get`, `Collection.set`, `Collection.border`   elements by number, and their count;
* `Collection.sameAs`        identity.
-/

namespace ScriptTables

inductive Collection where
  /-- a table, whose border is its length -/
  | native (id : TableId)
  /-- another value, with the metatable that had the hooks -/
  | protocol (object : Value) (metatable : TableId)
  deriving DecidableEq, Repr

namespace Collection

def value : Collection → Value
  | .native id => .table id
  | .protocol object _ => object

def isNative : Collection → Bool
  | .native _ => true
  | .protocol _ _ => false

/-- the metatable kept with a value that is no table -/
def metatable? : Collection → Option TableId
  | .native _ => none
  | .protocol _ metatable => some metatable

/-- the same object; contents are not compared -/
def sameAs : Collection → Collection → Bool
  | .native a, .native b => a == b
  | .protocol a _, .protocol b _ => a.rawEq b
  | _, _ => false

end Collection

section
variable {σ : Type} (host : Host σ)

/-! ## the check -/

def Host.holdsHooks (metatable : TableId) : List String → Action σ Bool
  | [] => pure true
  | hook :: hooks => do
    let handler ← host.field metatable hook
    if handler.isNil then pure false else Host.holdsHooks metatable hooks

/-- Check argument `position` of `function` (nothing, if it was not supplied) for what is required
of it.  To read elements a length is required too. -/
def Host.checkCollection (v : Option Value) (position : Nat) (function : String)
    (required : Capabilities) : Action σ Collection :=
  match v with
  | none => fail (.wrongType position function "table" none)
  | some (.table id) => pure (.native id)
  | some other => do
    let refusal : Fault := .wrongType position function "table" (some other.typeName)
    match ← host.metatable? other with
    | none => fail refusal
    | some metatable =>
      if ← host.holdsHooks metatable required.closed.hooks then
        pure (.protocol other metatable)
      else fail refusal

/-! ## elements -/

namespace Collection

def get (c : Collection) (i : Int) : Action σ Value :=
  host.index c.value (.integer (Int64.ofInt i))

def set (c : Collection) (i : Int) (v : Value) : Action σ Unit :=
  host.setIndex c.value (.integer (Int64.ofInt i)) v

/-- the integer that an answered length is -/
def lengthOf : Value → Action σ Int64
  | .integer n => pure n
  | .number x =>
    match x.toInteger? with
    | some n => pure n
    | none => fail .lengthNotInteger
  | _ => fail .lengthNotInteger

/-- the number of elements: the border of a table, else what the length hook answers -/
def border : Collection → Action σ Int64
  | .native id => host.border id
  | .protocol object _ => do
    let answer ← host.length object
    lengthOf answer

end Collection

/-- check an argument and compute its border; a length is required in any case -/
def Host.collectionWithBorder (v : Option Value) (position : Nat) (function : String)
    (required : Capabilities) : Action σ (Collection × Int64) := do
  let c ← host.checkCollection v position function (required.union .measuring)
  let border ← c.border host
  pure (c, border)

end

end ScriptTables
