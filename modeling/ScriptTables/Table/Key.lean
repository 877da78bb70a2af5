import ScriptTables.Value.Comparison
import ScriptTables.Fault
import Std.Data.TreeMap

/-!
# Table keys

A key is a value other than `nil` and the floats that are no number.  A float with an integer value
is that integer as a key, so that values which are raw equal name the same entry.

* `Value.normalizeKey`   the form that a value takes as a key;
* `Key`             the keys;
* `Key.ofValue?`    the key that a value names, or why it names none;
* `Key.IsNormal`    what is true of the keys that values name;
* `Key.compare`     an order on keys, without meaning beyond telling them apart;
* `Entries`         values kept under keys.
-/

namespace ScriptTables

/-! ## keys -/

/-- the form that a value takes as a key: a float with an integer value becomes that integer -/
def Value.normalizeKey : Value → Value
  | .number x =>
    match x.toInteger? with
    | some n => .integer n
    | none => .number x
  | v => v

inductive Key where
  | boolean (b : Bool)
  | integer (n : Int64)
  | number (x : Binary64)
  | string (s : String)
  | table (id : TableId)
  | function (id : FunctionId)
  | userdata (id : UserdataId)
  deriving DecidableEq, Repr

namespace Key

def ofValue? (v : Value) : Except Fault Key :=
  match v.normalizeKey with
  | .nil => .error .keyIsNil
  | .boolean b => .ok (.boolean b)
  | .integer n => .ok (.integer n)
  | .number x => if x.isNaN then .error .keyIsNaN else .ok (.number x)
  | .string s => .ok (.string s)
  | .table id => .ok (.table id)
  | .function id => .ok (.function id)
  | .userdata id => .ok (.userdata id)

theorem ofValue?_integer (n : Int64) : ofValue? (.integer n) = .ok (.integer n) := rfl

theorem ofValue?_of_integer {x : Binary64} {n : Int64} (h : x.toInteger? = some n) :
    ofValue? (.number x) = .ok (.integer n) := by
  simp only [ofValue?, Value.normalizeKey, h]

theorem ofValue?_of_isNaN {x : Binary64} (h : x.toInteger? = none) (hnan : x.isNaN = true) :
    ofValue? (.number x) = .error .keyIsNaN := by
  simp only [ofValue?, Value.normalizeKey, h, hnan, if_true]

theorem ofValue?_of_fraction {x : Binary64} (h : x.toInteger? = none) (hnan : x.isNaN = false) :
    ofValue? (.number x) = .ok (.number x) := by
  simp only [ofValue?, Value.normalizeKey, h, hnan, Bool.false_eq_true, if_false]

def toValue : Key → Value
  | .boolean b => .boolean b
  | .integer n => .integer n
  | .number x => .number x
  | .string s => .string s
  | .table id => .table id
  | .function id => .function id
  | .userdata id => .userdata id

/-- a key that some value names: a float only if it is a number and no integer -/
def IsNormal : Key → Prop
  | .number x => x.toInteger? = none ∧ x.isNaN = false
  | _ => True

theorem isNormal_of_ofValue? {v : Value} {k : Key} (h : ofValue? v = .ok k) : k.IsNormal := by
  cases v with
  | nil => cases h
  | number x =>
    cases hx : x.toInteger? with
    | some n => rw [ofValue?_of_integer hx] at h; cases h; trivial
    | none =>
      cases hnan : x.isNaN with
      | true => rw [ofValue?_of_isNaN hx hnan] at h; cases h
      | false => rw [ofValue?_of_fraction hx hnan] at h; cases h; exact ⟨hx, hnan⟩
  | _ => cases h; trivial

/-! ## order -/

/-- the place of a key's type -/
def rank : Key → Nat
  | .boolean _ => 0
  | .integer _ => 1
  | .number _ => 2
  | .string _ => 3
  | .table _ => 4
  | .function _ => 5
  | .userdata _ => 6

/-- what tells two keys of one type apart, strings excepted -/
def code : Key → Int
  | .boolean b => if b then 1 else 0
  | .integer n => n.toInt
  | .number x => x.bits.toNat
  | .string _ => 0
  | .table id => id.index
  | .function id => id.index
  | .userdata id => id.index

def text : Key → String
  | .string s => s
  | _ => ""

/-- by type, then by code, then by text -/
def compare : Key → Key → Ordering :=
  compareLex (compareOn rank) (compareLex (compareOn code) (compareOn text))

instance : Std.TransCmp compare :=
  inferInstanceAs (Std.TransCmp
    (compareLex (compareOn rank) (compareLex (compareOn code) (compareOn text))))

theorem eq_of_parts {a b : Key} (hr : a.rank = b.rank) (hc : a.code = b.code)
    (ht : a.text = b.text) : a = b := by
  cases a <;> cases b <;> simp only [rank, code, text] at hr hc ht <;> try cases hr
  case boolean.boolean a b => cases a <;> cases b <;> simp_all
  case integer.integer m n => rw [Int64.toInt_inj.mp hc]
  case number.number x y =>
    have h : x.bits = y.bits := UInt64.toNat_inj.mp (Int.ofNat_inj.mp hc)
    rw [show x = y from congrArg Binary64.mk h]
  case string.string s t => rw [ht]
  case table.table x y => rw [show x = y from congrArg TableId.mk (Int.ofNat_inj.mp hc)]
  case function.function x y => rw [show x = y from congrArg FunctionId.mk (Int.ofNat_inj.mp hc)]
  case userdata.userdata x y => rw [show x = y from congrArg UserdataId.mk (Int.ofNat_inj.mp hc)]

theorem compare_eq_iff {a b : Key} : compare a b = .eq ↔ a = b := by
  constructor
  · intro h
    simp only [compare, compareLex, compareOn, Ordering.then_eq_eq, Std.compare_eq_iff_eq] at h
    exact eq_of_parts h.1 h.2.1 h.2.2
  · rintro rfl
    exact Std.ReflCmp.compare_self

instance : Std.LawfulEqCmp compare where
  eq_of_compare := compare_eq_iff.mp

end Key

/-! ## entries -/

abbrev Entries := Std.TreeMap Key Value Key.compare

namespace Entries

/-- the value under a key, or `nil` -/
def find (m : Entries) (k : Key) : Value := (m[k]?).getD .nil

/-- keep a value under a key; `nil` removes the entry -/
def put (m : Entries) (k : Key) (v : Value) : Entries :=
  if v.isNil then m.erase k else m.insert k v

theorem find_empty (k : Key) : find ∅ k = .nil := by
  simp [find]

theorem find_put (m : Entries) (k : Key) (v : Value) (k' : Key) :
    (m.put k v).find k' = if k = k' then v else m.find k' := by
  unfold put find
  by_cases hv : v.isNil = true
  · rw [if_pos hv, Std.TreeMap.getElem?_erase]
    by_cases hk : k = k'
    · simp [hk, Value.isNil_iff.mp hv]
    · simp [hk]
  · rw [if_neg hv, Std.TreeMap.getElem?_insert]
    by_cases hk : k = k'
    · simp [hk]
    · simp [hk]

end Entries

end ScriptTables
