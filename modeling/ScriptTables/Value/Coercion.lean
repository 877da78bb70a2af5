import ScriptTables.Value.Basic
import ScriptTables.Text.Blank
import ScriptTables.Numeric.Numeral
import ScriptTables.Numeric.Rendering

/-!
# Numbers and strings that stand for each other

* `Value.toInteger?`   the integer that a number or a numeric string is;
* `Value.isNumeric`    whether a float or a string writes a number at all, integer or not;
* `Value.toText?`      the text of a string or a number.
-/

namespace ScriptTables

/-! ## integers -/

/-- The integer that a text writes, blanks at its ends ignored: as an integer numeral when 64 bits
hold it, else through the nearest float. -/
def integerOfText? (s : String) : Option Int64 :=
  let cs := trimBlanks s.toList
  match (readInteger? cs).bind int64OfInt? with
  | some n => some n
  | none => (Numeral.ofChars? cs).bind fun numeral => numeral.toBinary64.toInteger?

def isNumeralText (s : String) : Bool := (Numeral.ofChars? (trimBlanks s.toList)).isSome

namespace Value

def toInteger? : Value → Option Int64
  | .integer n => some n
  | .number x => x.toInteger?
  | .string s => integerOfText? s
  | _ => none

/-- whether a value is a float or the text of a number -/
def isNumeric : Value → Bool
  | .number _ => true
  | .string s => isNumeralText s
  | _ => false

/-! ## text -/

/-- a string as it is, a number as it is written -/
def toText? : Value → Option String
  | .string s => some s
  | .integer n => some n.toInt.repr
  | .number x => some x.render
  | _ => none

end Value

end ScriptTables
