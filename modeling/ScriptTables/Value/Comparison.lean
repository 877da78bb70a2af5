import ScriptTables.Value.Basic

/-!
# Equality and order without hooks

Numbers are compared by mathematical value whichever their kind, strings by code points, objects by
identity.  A float that is no number differs from itself.

* `Value.rawEq`      raw equality;
* `Value.hashData`   what a value contributes to a hash: alike for values that are equal;
* `Value.less?`      the order of two numbers or of two strings; other pairs have none of their own.
-/

namespace ScriptTables

namespace Value

/-! ## equality -/

def rawEq : Value → Value → Bool
  | .integer m, .integer n => m == n
  | .number x, .number y => x.exact.equal y.exact
  | .integer m, .number y => y.toInteger? == some m
  | .number x, .integer n => x.toInteger? == some n
  | a, b => a == b

theorem rawEq_self {v : Value} (h : ∀ x, v = .number x → x.exact ≠ .nan) :
    rawEq v v = true := by
  cases v with
  | number x => exact Exact.equal_self (h x rfl)
  | _ => simp [rawEq]

/-- zero and minus zero are equal -/
example : rawEq (.number ⟨0⟩) (.number ⟨0x8000000000000000⟩) = true := rfl

end Value

/-! ## hashing -/

/-- what a value contributes to a hash -/
inductive HashData where
  | nil
  | boolean (b : Bool)
  | integer (n : Int64)
  | number (x : Binary64)
  | string (s : String)
  | table (id : TableId)
  | function (id : FunctionId)
  | userdata (id : UserdataId)
  deriving DecidableEq, Repr

namespace Value

/-- a float with an integer value counts as that integer, and all floats that are no number as one -/
def hashData : Value → HashData
  | .nil => .nil
  | .boolean b => .boolean b
  | .integer n => .integer n
  | .number x =>
    match x.toInteger? with
    | some n => .integer n
    | none => .number (if x.isNaN then .nan false else x)
  | .string s => .string s
  | .table id => .table id
  | .function id => .function id
  | .userdata id => .userdata id

/-! ## order -/

/-- whether an integer is below a float: below the least integer that is not below the float -/
def integerBelowFloat (m : Int64) (y : Binary64) : Bool :=
  !y.isNaN && decide (m.toInt < y.exact.ceiling128)

/-- whether a float is below an integer: the greatest integer that is not above the float is -/
def floatBelowInteger (x : Binary64) (n : Int64) : Bool :=
  !x.isNaN && decide (x.exact.floor128 < n.toInt)

/-- whether one value is below another, when both are numbers or both are strings -/
def less? : Value → Value → Option Bool
  | .integer m, .integer n => some (decide (m < n))
  | .number x, .number y => some (x.exact.less y.exact)
  | .integer m, .number y => some (integerBelowFloat m y)
  | .number x, .integer n => some (floatBelowInteger x n)
  | .string s, .string t => some (decide (s < t))
  | _, _ => none

end Value

end ScriptTables
