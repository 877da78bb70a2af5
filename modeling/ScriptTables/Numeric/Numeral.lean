import ScriptTables.Numeric.Rounding

/-!
# Reading numerals

Two grammars over lists of characters, neither of which allows blanks:

* an integer numeral is an optional sign and one or more decimal digits;
* a float numeral is an optional sign and then `inf`, `infinity` or `nan` in any letter case, or
  digits with at most one point among them, or at one of their ends, and an optional exponent: `e`
  or `E` and an integer numeral.

An integer numeral may have any number of digits.  In an exponent the digits after those that reach
`2^16` are passed over, so that every exponent is a number of moderate size.

* `natOfDigits`           the number that digits write;
* `exponentOfDigits`      the number that the digits of an exponent stand for;
* `readInteger?`          the integer of an integer numeral;
* `Numeral`               a float numeral taken apart;
* `Numeral.ofChars?`      the reader of the second grammar;
* `Numeral.toBinary64`    the nearest number.
-/

namespace ScriptTables

/-! ## integers -/

/-- the sign at the start of a numeral (`true` for minus) and what follows it -/
def takeSign : List Char → Bool × List Char
  | '-' :: cs => (true, cs)
  | '+' :: cs => (false, cs)
  | cs => (false, cs)

def withSign (negative : Bool) (n : Nat) : Int :=
  if negative then -(n : Int) else n

/-- one or more decimal digits, and nothing else -/
def areDigits (cs : List Char) : Bool := !cs.isEmpty && cs.all Char.isDigit

/-- digits of which there are at most so many are read one by one -/
def digitBlock : Nat := 64

/-- the number that decimal digits write, halved at most so many times; of two halves each product
is of two numbers of like size, which keeps long texts cheap -/
def natOfHalves : Nat → List Char → Nat
  | 0, cs => Nat.ofDigitChars 10 cs 0
  | halvings + 1, cs =>
    let half := cs.length / 2
    natOfHalves halvings (cs.take half) * tenPow (cs.length - half)
      + natOfHalves halvings (cs.drop half)

def natOfDigits (cs : List Char) : Nat := natOfHalves (cs.length / digitBlock).log2 cs

/-- an exponent that has reached this takes no more digits -/
def exponentCeiling : Nat := 65536

def takeExponentDigit (n : Nat) (c : Char) : Nat :=
  if n < exponentCeiling then 10 * n + (c.toNat - '0'.toNat) else n

def exponentOfDigits (cs : List Char) : Nat := cs.foldl takeExponentDigit 0

/-- an optional sign and one or more digits, read by a rule for the digits -/
def readSigned? (magnitude : List Char → Nat) (cs : List Char) : Option Int :=
  let (negative, digits) := takeSign cs
  if areDigits digits then some (withSign negative (magnitude digits)) else none

def readInteger? (cs : List Char) : Option Int := readSigned? natOfDigits cs

theorem natOfHalves_eq (halvings : Nat) (cs : List Char) :
    natOfHalves halvings cs = Nat.ofDigitChars 10 cs 0 := by
  induction halvings generalizing cs with
  | zero => rfl
  | succ halvings ih =>
    have hlen : (cs.drop (cs.length / 2)).length = cs.length - cs.length / 2 := List.length_drop
    rw [natOfHalves, ih, ih, tenPow, Nat.pow_eq, ← hlen, Nat.mul_comm,
      ← Nat.ofDigitChars_eq_ofDigitChars_zero, ← Nat.ofDigitChars_append, List.take_append_drop]

theorem natOfDigits_eq (cs : List Char) : natOfDigits cs = Nat.ofDigitChars 10 cs 0 :=
  natOfHalves_eq _ cs

theorem takeSign_digit {c : Char} (h : c.isDigit = true) (cs : List Char) :
    takeSign (c :: cs) = (false, c :: cs) := by
  have h₁ : c ≠ '-' := by rintro rfl; cases h
  have h₂ : c ≠ '+' := by rintro rfl; cases h
  unfold takeSign
  split
  · next heq => cases heq; exact absurd rfl h₁
  · next heq => cases heq; exact absurd rfl h₂
  · rfl

/-! ## floats -/

/-- a float numeral, taken apart -/
inductive Numeral where
  | decimal (negative : Bool) (coefficient : Nat) (exponent : Int)
  | infinity (negative : Bool)
  | nan (negative : Bool)
  deriving DecidableEq, Repr

namespace Numeral

/-- the exponent part of a numeral: nothing, or a letter and an integer numeral -/
def readExponent? : List Char → Option Int
  | [] => some 0
  | c :: cs => if c = 'e' ∨ c = 'E' then readSigned? exponentOfDigits cs else none

/-- the digits after a point, if there is a point, and what follows them -/
def takeFraction : List Char → List Char × List Char
  | '.' :: cs => (cs.takeWhile Char.isDigit, cs.dropWhile Char.isDigit)
  | cs => ([], cs)

/-- digits, point, digits, exponent; the digits after the point lower the exponent -/
def readDecimal? (negative : Bool) (cs : List Char) : Option Numeral :=
  let whole := cs.takeWhile Char.isDigit
  let (fraction, rest) := takeFraction (cs.dropWhile Char.isDigit)
  if (whole ++ fraction).isEmpty then none
  else do
    let exponent ← readExponent? rest
    some (.decimal negative (natOfDigits (whole ++ fraction)) (exponent - fraction.length))

def ofChars? (cs : List Char) : Option Numeral :=
  let (negative, rest) := takeSign cs
  let word := rest.map Char.toLower
  if word = "inf".toList ∨ word = "infinity".toList then some (.infinity negative)
  else if word = "nan".toList then some (.nan negative)
  else readDecimal? negative rest

def toBinary64 : Numeral → Binary64
  | .decimal negative coefficient exponent => .ofDecimal negative coefficient exponent
  | .infinity negative => .infinity negative
  | .nan negative => .nan negative

end Numeral

end ScriptTables
