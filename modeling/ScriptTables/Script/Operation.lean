import ScriptTables.Library.Namespace

/-!
# Operations on values

What the operations of scripts do once their operands are values.

* `Value.display`, `Value.inspect`   texts of a value; objects without a name have no stable text;
* `Nullary.run`, `Unary.run`, `Binary.run`, `Ternary.run`   the operations by operand count;
* `CheckRequest.collection`, ...     the check of an operand, and the operations on what was checked.
-/

namespace ScriptTables

/-! ## texts -/

/-- what stands for an address in texts -/
def addressText : String := "PTR"

namespace Value

/-- a value as text; an object is shown with its kind -/
def display (h : Heap) : Value → String
  | .nil => "nil"
  | .boolean b => if b then "true" else "false"
  | .integer n => n.toInt.repr
  | .number x => x.render
  | .string s => s
  | .table _ => "table: " ++ addressText
  | .function id => "function: " ++ (h.function id).name
  | .userdata _ => "userdata: " ++ addressText

/-- a value as text that tells its kind -/
def inspect (h : Heap) : Value → String
  | .nil => "Nil"
  | .boolean b => "Boolean(" ++ (if b then "true" else "false") ++ ")"
  | .integer n => "Integer(" ++ n.toInt.repr ++ ")"
  | .number x => "Number(" ++ x.render ++ ")"
  | .string s => "String(" ++ s.quote ++ ")"
  | .table _ => "Table(table: " ++ addressText ++ ")"
  | .function id => "Function(<function:" ++ (h.function id).name ++ ">)"
  | .userdata _ => "Userdata(userdata: " ++ addressText ++ ")"

def integerOrZero (v : Value) : Int64 := v.toInteger?.getD 0

/-- The count of an operand, or zero.  A count has 64 bits and no sign, so a negative integer counts as
a huge one. -/
def countOrZero (v : Value) : Nat := v.integerOrZero.toUInt64.toNat

/-- an operand that may be left out by giving `nil` -/
def position? (v : Value) : Option Int64 :=
  match v with
  | .nil => none
  | other => other.toInteger?

end Value

def optionalResult (v : Option Value) : List Value := v.toList

/-! ## arithmetic -/

/-- Arithmetic in 64 bits.  The remainder is never negative; without a positive divisor it is zero. -/
def Arithmetic.apply : Arithmetic → Int64 → Int64 → Int64
  | .add, a, b => a + b
  | .sub, a, b => a - b
  | .mul, a, b => a * b
  | .mod, a, b => if 0 < b.toInt then Int64.ofInt (a.toInt % b.toInt) else 0

/-! ## operations by operand count -/

section
variable (call : Caller)

def tableOperand (v : Value) : EvalM TableId :=
  match v with
  | .table id => pure id
  | other => fail (.cannotIndex other.typeName)

def Nullary.run : Nullary → EvalM (List Value)
  | .globals => do
    let id ← observe Machine.globals
    pure [.table id]
  | .limits => do
    let limits ← observe Machine.limits
    pure [.integer (Int64.ofNat limits.maxCallDepth), .integer (Int64.ofNat limits.maxStack),
      .integer (Int64.ofNat limits.maxMetaChain)]
  | .openLibrary => do
    let id ← EvalM.openLibrary
    pure [.table id]
  | .libraryNames => pure (LibraryFunction.all.map fun f => .string f.name)
  | .libraryFunction name =>
    pure (optionalResult ((LibraryFunction.ofName? name).map fun f => .string f.name))
  | .getGlobal name => do
    let v ← EvalM.getGlobal name
    pure [v]
  | .containsCapabilities a b => pure [.boolean (a.contains b)]

def Unary.run (v : Value) : Unary → EvalM (List Value)
  | .typeName => pure [.string v.typeName.text]
  | .isNil => pure [.boolean v.isNil]
  | .isTruthy => pure [.boolean v.isTruthy]
  | .toInteger => pure (optionalResult (v.toInteger?.map .integer))
  | .toText => pure (optionalResult (v.toText?.map .string))
  | .display => EvalM.readHeap fun h => [.string (v.display h)]
  | .inspect => EvalM.readHeap fun h => [.string (v.inspect h)]
  | .metatable => EvalM.readHeap fun h => optionalResult ((h.metatable? v).map .table)
  | .floatToInteger =>
    match v with
    | .number x => pure (optionalResult (x.toInteger?.map .integer))
    | other => pure (optionalResult (other.toInteger?.map .integer))
  | .formatFloat => pure (optionalResult (v.toText?.map .string))
  | .rawGetString key => do
    let id ← tableOperand v
    EvalM.readHeap fun h => [(h.table id).getString key]
  | .border => do
    let id ← tableOperand v
    EvalM.readHeap fun h => [.integer (Int64.ofNat (h.table id).border)]
  | .entryCount => do
    let id ← tableOperand v
    EvalM.readHeap fun h => [.integer (Int64.ofNat (h.table id).entryCount)]
  | .clone => do
    let id ← tableOperand v
    let t ← EvalM.readHeap fun h => h.table id
    let copy ← EvalM.newTable t
    pure [.table copy]
  | .elements => do
    let id ← tableOperand v
    EvalM.readHeap fun h => (h.table id).elements
  | .rawLength => EvalM.readHeap fun h => optionalResult ((h.rawLength? v).map .integer)
  | .length => do
    let n ← EvalM.length call v
    pure [n]
  | .checkStack => do
    let b ← (Machine.host call).fits v.countOrZero
    pure [.boolean b]
  | .metamethod event => EvalM.readHeap fun h => [h.metamethod v event]
  | .setGlobal name => do
    EvalM.setGlobal name v
    pure []

def Binary.run (a b : Value) : Binary → EvalM (List Value)
  | .arithmetic f => pure [.integer (f.apply a.integerOrZero b.integerOrZero)]
  | .equal => pure [.boolean (a.rawEq b)]
  | .hashEqual => pure [.boolean (a.hashData == b.hashData)]
  | .rawGet => do
    let id ← tableOperand a
    EvalM.readHeap fun h => [(h.table id).get b]
  | .rawGetInteger => do
    let id ← tableOperand a
    EvalM.readHeap fun h => [(h.table id).getInteger b.integerOrZero]
  | .rawSetString key => do
    let id ← tableOperand a
    EvalM.rawSet id (.string key) b
    pure []
  | .index => do
    let v ← EvalM.index call a b
    pure [v]
  | .getInteger => do
    let v ← EvalM.index call a (.integer b.integerOrZero)
    pure [v]
  | .lessThan => do
    let less ← EvalM.lessThan call a b
    pure [.boolean less]
  | .setMetatable => do
    EvalM.setMetatable a b.table?
    pure []
  | .remove => do
    let removed ← (Machine.host call).remove a b.position?
    pure (optionalResult removed)
  | .sort => do
    (Machine.host call).sort a b
    pure []

def Ternary.run (a b c : Value) : Ternary → EvalM (List Value)
  | .rawSet => do
    let id ← tableOperand a
    EvalM.rawSet id b c
    pure []
  | .rawSetInteger => do
    let id ← tableOperand a
    EvalM.rawSet id (.integer b.integerOrZero) c
    pure []
  | .setIndex => do
    EvalM.setIndex call a b c
    pure []
  | .setInteger => do
    EvalM.setIndex call a (.integer b.integerOrZero) c
    pure []
  | .insert => do
    (Machine.host call).insert a b.position? c
    pure []
  | .concat separator => do
    let s ← (Machine.host call).concat a separator b.position? c.position?
    pure [.string s]
  | .unpack => (Machine.host call).unpack a b.position? c.position?

/-! ## other operations -/

def runMove (source : Value) (target : Option Value) (first last destination : Value) :
    EvalM (List Value) := do
  let range : MoveRange :=
    ⟨first.integerOrZero, last.integerOrZero, destination.integerOrZero⟩
  let v ← (Machine.host call).move source range target
  pure [v]

namespace CheckRequest

def collection (r : CheckRequest) (v : Option Value) : EvalM Collection :=
  (Machine.host call).checkCollection v r.position r.function r.required

/-- what the check finds: whether it is a table, the value, and the metatable kept with others -/
def describe (r : CheckRequest) (v : Option Value) : EvalM (List Value) := do
  let c ← r.collection call v
  pure [.boolean c.isNative, c.value, (c.metatable?.map Value.table).getD .nil]

def border (r : CheckRequest) (v : Option Value) : EvalM (List Value) := do
  let c ← r.collection call v
  let n ← c.border (Machine.host call)
  pure [.integer n]

end CheckRequest

namespace Collection

def elementAt (c : Collection) (key : Value) : EvalM (List Value) := do
  let v ← c.get (Machine.host call) key.integerOrZero.toInt
  pure [v]

def putElement (c : Collection) (key new : Value) : EvalM (List Value) := do
  c.set (Machine.host call) key.integerOrZero.toInt new
  pure []

end Collection

end

end ScriptTables
