/-!
# Blank characters

White space is the Unicode property `White_Space`: 25 code points, of which six are ASCII.

* `isBlank`     the property as a table of code points;
* `trimBlanks`  a text without the blanks at its two ends.
-/

namespace ScriptTables

/-! ## the property -/

/-- the code points of white space above U+0020, those in a run (U+2000 to U+200A) apart -/
def blankCodePoints : List Nat :=
  [0x85, 0xA0, 0x1680, 0x2028, 0x2029, 0x202F, 0x205F, 0x3000]

/-- white space: tab to carriage return, the space, and the spaces beyond ASCII -/
def isBlank (c : Char) : Bool :=
  let n := c.toNat
  (0x09 ≤ n && n ≤ 0x0D) || n == 0x20 || (0x2000 ≤ n && n ≤ 0x200A) || blankCodePoints.contains n

theorem isBlank_of_isDigit {c : Char} (h : c.isDigit = true) : isBlank c = false := by
  simp only [Char.isDigit, Bool.and_eq_true, decide_eq_true_eq, ge_iff_le,
    UInt32.le_iff_toNat_le] at h
  change 48 ≤ c.toNat ∧ c.toNat ≤ 57 at h
  simp only [isBlank, blankCodePoints, List.contains_cons, List.contains_nil,
    Bool.or_eq_false_iff, Bool.and_eq_false_iff, beq_eq_false_iff_ne, decide_eq_false_iff_not,
    ne_eq, and_true]
  omega

/-- a space that does not break is blank, one without a width is not -/
example : isBlank '\u00a0' = true ∧ isBlank '\u200b' = false := by decide

/-! ## trimming -/

def trimBlanks (cs : List Char) : List Char :=
  (((cs.dropWhile isBlank).reverse).dropWhile isBlank).reverse

end ScriptTables
