import Mathlib.Data.List.TakeWhile
import ScriptTables.Library.Arguments
import ScriptTables.Proofs.Numeric.Nearest

/-!
# Integers that stand in texts

A text may hold an integer of any length.  If 64 bits hold the integer, the text stands for it.
Otherwise the text is read once more, as a float, and what the float is rounded to decides: behind the
greatest integer that is never an integer of 64 bits, but before the least one it is, for the first 1024
integers.

* `IntegerText`             blanks, a sign or none, decimal digits, blanks;
* `IntegerText.ofInteger`   the text that an integer is written as;
* `toInteger?_text`         what such a text stands for;
* `integers_read`           it is the integer that is written, if 64 bits hold it; otherwise it is none,
                            those 1024 integers apart, and no argument either.
-/

namespace ScriptTables

/-! ## blanks at the ends -/

theorem dropWhile_blanks {before cs : List Char} (hbefore : ∀ c ∈ before, isBlank c = true)
    (hcs : ∀ c ∈ cs, isBlank c = false) : (before ++ cs).dropWhile isBlank = cs := by
  rw [List.dropWhile_append_of_pos hbefore, List.dropWhile_eq_self_iff]
  exact fun hpos => Bool.eq_false_iff.mp (hcs _ (List.getElem_mem hpos))

theorem trimBlanks_append {before cs after : List Char} (hbefore : ∀ c ∈ before, isBlank c = true)
    (hcs : ∀ c ∈ cs, isBlank c = false) (hafter : ∀ c ∈ after, isBlank c = true) :
    trimBlanks (before ++ cs ++ after) = cs := by
  have hback : (cs ++ after).reverse.dropWhile isBlank = cs.reverse := by
    rw [List.reverse_append]
    exact dropWhile_blanks (fun c hc => hafter c (List.mem_reverse.mp hc))
      (fun c hc => hcs c (List.mem_reverse.mp hc))
  cases cs with
  | nil =>
    have hall : ∀ c ∈ before ++ [] ++ after, isBlank c = true := by
      intro c hc
      rw [List.append_nil, List.mem_append] at hc
      exact hc.elim (hbefore c) (hafter c)
    rw [trimBlanks, List.dropWhile_eq_nil_iff.mpr hall]
    rfl
  | cons c cs =>
    have hfront : (before ++ (c :: cs) ++ after).dropWhile isBlank = c :: cs ++ after := by
      rw [List.append_assoc, List.dropWhile_append_of_pos hbefore, List.cons_append,
        List.dropWhile_cons_of_neg (Bool.eq_false_iff.mp (hcs c List.mem_cons_self))]
    rw [trimBlanks, hfront, hback, List.reverse_reverse]

theorem toLower_of_isDigit {c : Char} (h : c.isDigit = true) : c.toLower = c := by
  simp only [Char.isDigit, Bool.and_eq_true, decide_eq_true_eq] at h
  have hcase : ¬(c.val ≥ 'A'.val ∧ c.val ≤ 'Z'.val) :=
    fun hupper => absurd (UInt32.le_trans hupper.1 h.2) (by decide)
  exact dif_neg hcase

/-! ## texts -/

inductive SignMark where
  | absent
  | plus
  | minus
  deriving DecidableEq, Repr

namespace SignMark

def chars : SignMark → List Char
  | .absent => []
  | .plus => ['+']
  | .minus => ['-']

def isNegative : SignMark → Bool
  | .minus => true
  | _ => false

/-- an integer is written with a minus or with no mark -/
def ofInteger : Int → SignMark
  | .ofNat _ => .absent
  | .negSucc _ => .minus

end SignMark

/-- an integer in a text: a sign or none and one or more decimal digits, with blanks around them -/
structure IntegerText where
  before : List Char
  mark : SignMark
  digits : List Char
  after : List Char
  before_blank : ∀ c ∈ before, isBlank c = true
  digits_ne_nil : digits ≠ []
  digits_decimal : ∀ c ∈ digits, c.isDigit = true
  after_blank : ∀ c ∈ after, isBlank c = true

namespace IntegerText

variable (t : IntegerText)

def numeral : List Char := t.mark.chars ++ t.digits

def text : String := String.ofList (t.before ++ t.numeral ++ t.after)

/-- the number that the digits write, in base ten -/
def magnitude : Nat := Nat.ofDigitChars 10 t.digits 0

def value : Int := withSign t.mark.isNegative t.magnitude

def ofInteger (i : Int) : IntegerText where
  before := []
  mark := .ofInteger i
  digits := Nat.toDigits 10 i.natAbs
  after := []
  before_blank := fun _ hc => absurd hc List.not_mem_nil
  digits_ne_nil := Nat.toDigits_ne_nil
  digits_decimal := fun _ hc => Nat.isDigit_of_mem_toDigits (by decide) (by decide) hc
  after_blank := fun _ hc => absurd hc List.not_mem_nil

theorem text_ofInteger (i : Int) : (ofInteger i).text = i.repr := by
  rw [text, numeral]
  cases i with
  | ofNat n =>
    show String.ofList ([] ++ ([] ++ Nat.toDigits 10 n) ++ []) = n.repr
    rw [List.nil_append, List.nil_append, List.append_nil, Nat.repr_eq_ofList_toDigits]
  | negSucc n =>
    show String.ofList ([] ++ (['-'] ++ Nat.toDigits 10 (n + 1)) ++ []) = "-" ++ (n + 1).repr
    rw [List.nil_append, List.append_nil, String.ofList_append, Nat.repr_eq_ofList_toDigits]

theorem value_ofInteger (i : Int) : (ofInteger i).value = i := by
  have hmagnitude : (ofInteger i).magnitude = i.natAbs := Nat.ofDigitChars_ten_toDigits
  rw [value, hmagnitude]
  cases i with
  | ofNat n => rfl
  | negSucc n => rfl

/-! ## what is read -/

theorem areDigits_digits : areDigits t.digits = true := by
  rw [areDigits, Bool.and_eq_true, Bool.not_eq_true', List.isEmpty_eq_false_iff, List.all_eq_true]
  exact ⟨t.digits_ne_nil, t.digits_decimal⟩

theorem isBlank_numeral : ∀ c ∈ t.numeral, isBlank c = false := by
  intro c hc
  rcases List.mem_append.mp hc with hmark | hdigit
  · cases hm : t.mark <;> rw [hm] at hmark
    · exact absurd hmark List.not_mem_nil
    · exact List.mem_singleton.mp hmark ▸ rfl
    · exact List.mem_singleton.mp hmark ▸ rfl
  · exact isBlank_of_isDigit (t.digits_decimal c hdigit)

theorem trimBlanks_text : trimBlanks t.text.toList = t.numeral := by
  rw [text, String.toList_ofList]
  exact trimBlanks_append t.before_blank t.isBlank_numeral t.after_blank

theorem takeSign_numeral : takeSign t.numeral = (t.mark.isNegative, t.digits) := by
  rw [numeral]
  cases t.mark with
  | absent =>
    obtain ⟨d, ds, hdigits⟩ := List.exists_cons_of_ne_nil t.digits_ne_nil
    have hd : d.isDigit = true := t.digits_decimal d (hdigits ▸ List.mem_cons_self)
    rw [hdigits]
    exact takeSign_digit hd ds
  | plus => rfl
  | minus => rfl

/-- as an integer numeral the text is the integer -/
theorem readInteger?_numeral : readInteger? t.numeral = some t.value := by
  rw [readInteger?, readSigned?, takeSign_numeral]
  dsimp only
  rw [if_pos t.areDigits_digits, natOfDigits_eq]
  rfl

theorem map_toLower_digits_ne {c : Char} (hc : c.isDigit = false) (word : List Char) :
    t.digits.map Char.toLower ≠ c :: word := by
  intro hword
  obtain ⟨d, ds, hdigits, hlower, -⟩ := List.map_eq_cons_iff.mp hword
  have hd : d.isDigit = true := t.digits_decimal d (hdigits ▸ List.mem_cons_self)
  rw [toLower_of_isDigit hd] at hlower
  rw [← hlower, hd] at hc
  cases hc

/-- as a float numeral the text has all digits in front of the point, and no exponent -/
theorem ofChars?_numeral :
    Numeral.ofChars? t.numeral = some (.decimal t.mark.isNegative t.magnitude 0) := by
  have hwhole : t.digits.takeWhile Char.isDigit = t.digits :=
    List.takeWhile_eq_self_iff.mpr t.digits_decimal
  have hrest : t.digits.dropWhile Char.isDigit = [] :=
    List.dropWhile_eq_nil_iff.mpr t.digits_decimal
  have hsome : t.digits.isEmpty = false := List.isEmpty_eq_false_iff.mpr t.digits_ne_nil
  have hinfinite : ¬(t.digits.map Char.toLower = "inf".toList
      ∨ t.digits.map Char.toLower = "infinity".toList) :=
    not_or.mpr ⟨t.map_toLower_digits_ne rfl _, t.map_toLower_digits_ne rfl _⟩
  have hnan : ¬t.digits.map Char.toLower = "nan".toList := t.map_toLower_digits_ne rfl _
  rw [Numeral.ofChars?, takeSign_numeral]
  dsimp only
  rw [if_neg hinfinite, if_neg hnan, Numeral.readDecimal?, hwhole, hrest]
  dsimp only [Numeral.takeFraction]
  rw [List.append_nil, hsome, natOfDigits_eq]
  rfl

theorem value_of_not_negative (h : t.mark.isNegative = false) : t.value = t.magnitude := by
  rw [value, h]
  rfl

theorem value_of_negative (h : t.mark.isNegative = true) : t.value = -(t.magnitude : Int) := by
  rw [value, h]
  rfl

/-- where 64 bits do not hold the integer, the digits alone reach `2 ^ 63` -/
theorem le_magnitude (h : int64OfInt? t.value = none) : 2 ^ 63 ≤ t.magnitude := by
  rw [int64OfInt?_eq_none] at h
  cases hnegative : t.mark.isNegative with
  | false =>
    rw [t.value_of_not_negative hnegative] at h
    omega
  | true =>
    rw [t.value_of_negative hnegative] at h
    omega

/-- the integers below the least one that are rounded up to it -/
theorem rounded_iff (h : int64OfInt? t.value = none) :
    (t.mark.isNegative = true ∧ t.magnitude ≤ 2 ^ 63 + 2 ^ 10) ↔
      -2 ^ 63 - 2 ^ 10 ≤ t.value ∧ t.value < -2 ^ 63 := by
  rw [int64OfInt?_eq_none] at h
  cases hnegative : t.mark.isNegative with
  | false =>
    rw [t.value_of_not_negative hnegative]
    simp only [Bool.false_eq_true, false_and, false_iff]
    omega
  | true =>
    rw [t.value_of_negative hnegative] at h ⊢
    simp only [true_and]
    omega

/-- **A text stands for the integer that it holds, if 64 bits hold that one too.**  Of all others, the
first 1024 below the least integer stand for the least integer, and the rest stand for none. -/
theorem toInteger?_text :
    (Value.string t.text).toInteger? =
      if -2 ^ 63 - 2 ^ 10 ≤ t.value ∧ t.value < -2 ^ 63 then some Int64.minValue
      else int64OfInt? t.value := by
  have hread : (readInteger? (trimBlanks t.text.toList)).bind int64OfInt? = int64OfInt? t.value := by
    rw [trimBlanks_text, readInteger?_numeral, Option.bind_some]
  rw [Value.toInteger?, integerOfText?, hread]
  cases hvalue : int64OfInt? t.value with
  | some n =>
    have hn := int64OfInt?_eq_some.mp hvalue
    have hlow := n.le_toInt
    rw [if_neg (by omega)]
  | none =>
    dsimp only
    rw [trimBlanks_text, ofChars?_numeral, Option.bind_some, Numeral.toBinary64,
      Binary64.toInteger?_ofDecimal _ (t.le_magnitude hvalue)]
    simp only [t.rounded_iff hvalue]

theorem isNumeric_text : (Value.string t.text).isNumeric = true := by
  rw [Value.isNumeric, isNumeralText, trimBlanks_text, ofChars?_numeral]
  rfl

theorem toInteger?_eq_some {n : Int64} (h : t.value = n.toInt) :
    (Value.string t.text).toInteger? = some n := by
  have hlow := n.le_toInt
  rw [toInteger?_text, if_neg (by omega)]
  exact int64OfInt?_eq_some.mpr h

theorem toInteger?_eq_none (h : t.value < -2 ^ 63 - 2 ^ 10 ∨ 2 ^ 63 ≤ t.value) :
    (Value.string t.text).toInteger? = none := by
  rw [toInteger?_text, if_neg (by omega), int64OfInt?_eq_none]
  omega

end IntegerText

/-! ## arguments -/

section
variable {σ : Type} (function : String) (args : List Value) (position : Nat) (t : IntegerText)

theorem integerFault_text (h : argument? args position = some (.string t.text)) :
    integerFault function args position = .badArgument position function .noIntegerRepresentation := by
  rw [integerFault, argumentOrNil, h, Option.getD_some, if_pos t.isNumeric_text]

theorem checkInteger_text (h : argument? args position = some (.string t.text))
    (hnone : (Value.string t.text).toInteger? = none) :
    (checkInteger function args position : Action σ Int64)
      = fail (.badArgument position function .noIntegerRepresentation) := by
  rw [checkInteger, integerFault_text function args position t h, argumentOrNil, h, Option.getD_some,
    hnone]

theorem optionalInteger_text (h : argument? args position = some (.string t.text))
    (hnone : (Value.string t.text).toInteger? = none) :
    (optionalInteger function args position : Action σ (Option Int64))
      = fail (.badArgument position function .noIntegerRepresentation) := by
  have hsupplied : isAbsent args position = false := by
    rw [isAbsent, argumentOrNil, h]
    rfl
  rw [optionalInteger, hsupplied, checkInteger_text function args position t h hnone]
  rfl

end

theorem message_noIntegerRepresentation (function : String) (position : Nat) :
    (Fault.badArgument position function .noIntegerRepresentation).message
      = Fault.argumentText position function ++ "(number has no integer representation)" := by
  show Fault.argumentText position function ++ "(" ++ "number has no integer representation" ++ ")" = _
  rw [String.append_assoc, String.append_assoc]
  rfl

/-- **A text that holds an integer stands for that integer, if 64 bits hold it, and otherwise for none
and for no argument.**  The first 1024 integers below the least one are excepted: their texts stand for
the least one.  What an integer is written as stands for it. -/
theorem integers_read (t : IntegerText) (n : Int64) :
    (t.value = n.toInt → (Value.string t.text).toInteger? = some n) ∧
    (-2 ^ 63 - 2 ^ 10 ≤ t.value ∧ t.value < -2 ^ 63 →
      (Value.string t.text).toInteger? = some Int64.minValue) ∧
    (t.value < -2 ^ 63 - 2 ^ 10 ∨ 2 ^ 63 ≤ t.value →
      (Value.string t.text).toInteger? = none ∧
      ∀ {σ : Type} (function : String) (args : List Value) (position : Nat),
        argument? args position = some (.string t.text) →
          ∃ fault : Fault,
            fault.message
              = Fault.argumentText position function ++ "(number has no integer representation)" ∧
            (checkInteger function args position : Action σ Int64) = fail fault ∧
            (optionalInteger function args position : Action σ (Option Int64)) = fail fault) ∧
    ∃ s, (Value.integer n).toText? = some s ∧ (Value.string s).toInteger? = some n := by
  refine ⟨t.toInteger?_eq_some, ?_, ?_, n.toInt.repr, rfl, ?_⟩
  · intro hrounded
    rw [t.toInteger?_text, if_pos hrounded]
  · intro hout
    have hnone := t.toInteger?_eq_none hout
    exact ⟨hnone, fun function args position h =>
      ⟨_, message_noIntegerRepresentation function position,
        checkInteger_text function args position t h hnone,
        optionalInteger_text function args position t h hnone⟩⟩
  · rw [← IntegerText.text_ofInteger]
    exact IntegerText.toInteger?_eq_some _ (IntegerText.value_ofInteger _)

/-- blanks, a sign and leading zeros, and the integer behind the greatest one as an argument -/
theorem integers_read_padded :
    (Value.string "\t+0012 ").toInteger? = some 12 ∧
    (Value.string "9223372036854775808").toInteger? = none ∧
    ∃ fault : Fault,
      fault.message = "bad argument #2 to 'insert' (number has no integer representation)" ∧
      (checkInteger "insert" [.table ⟨0⟩, .string "9223372036854775808"] 2 : Action Unit Int64)
        = fail fault := by
  have hpadded := (integers_read ⟨['\t'], .plus, ['0', '0', '1', '2'], [' '], List.all_eq_true.mp rfl,
    List.cons_ne_nil _ _, List.all_eq_true.mp rfl, List.all_eq_true.mp rfl⟩ 12).1 rfl
  have hvalue := IntegerText.value_ofInteger (2 ^ 63)
  have hbehind := (integers_read (.ofInteger (2 ^ 63)) 0).2.2.1 (Or.inr (Int.le_of_eq hvalue.symm))
  have htext : (IntegerText.ofInteger (2 ^ 63)).text = "9223372036854775808" :=
    (IntegerText.text_ofInteger _).trans (by decide +kernel)
  obtain ⟨hnone, harguments⟩ := hbehind
  rw [htext] at hnone harguments
  obtain ⟨fault, hmessage, hcheck, -⟩ := harguments "insert"
    [.table ⟨0⟩, .string "9223372036854775808"] 2 rfl
  exact ⟨hpadded, hnone, fault, hmessage.trans (by decide), hcheck⟩

/-- The integer in front of the least one is read as the least one. -/
theorem predecessor_read :
    ∃ t : IntegerText, t.text = "-9223372036854775809" ∧ t.value = Int64.minValue.toInt - 1 ∧
      (Value.string t.text).toInteger? = some Int64.minValue := by
  have hvalue := IntegerText.value_ofInteger (-2 ^ 63 - 1)
  refine ⟨.ofInteger (-2 ^ 63 - 1), (IntegerText.text_ofInteger _).trans (by decide +kernel),
    hvalue, ?_⟩
  rw [IntegerText.toInteger?_text, hvalue, if_pos (by decide)]

end ScriptTables
