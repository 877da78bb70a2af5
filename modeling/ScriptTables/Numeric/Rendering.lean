import ScriptTables.Numeric.Rounding

/-!
# Writing numbers

A number is written with at most fourteen significant digits, rounded to nearest from its exact
value.  Between `10^-4` and `10^14` the point stands among the digits, elsewhere behind the first
of them and an exponent follows.  Zeros at the end of the fraction are left out, but positional
text keeps one digit behind the point, so that it is never the text of an integer.

* `DecimalFormat`            the decisions: how many digits, from which exponent on positional;
* `leadingDigits`            the rounded digits and the decimal exponent of the first of them;
* `Binary64.render`          the text.
-/

namespace ScriptTables

/-! ## the format -/

/-- the decisions about decimal text -/
structure DecimalFormat where
  /-- how many significant digits are kept -/
  precision : Nat
  /-- the least decimal exponent that is still written positionally -/
  leastPositional : Int
  deriving DecidableEq, Repr

/-- fourteen digits, positional from `10^-4` on and up to the last exponent the digits reach -/
def numberFormat : DecimalFormat := ⟨14, -4⟩

/-! ## the digits -/

/-- a power of ten that lifts the least positive number above one -/
def decimalLift : Nat := 324

/-- the decimal exponent of the first digit of a positive count of steps: the value times
`10^324` has one more digit before the point than its exponent says -/
def decimalExponent (steps : Nat) : Int :=
  (Nat.toDigits 10 (steps * tenPow decimalLift / gridScale)).length - (decimalLift + 1 : Int)

/-- a count of steps divided by `10^exponent`, to the nearest whole number -/
def roundAt (steps : Nat) (exponent : Int) : Nat :=
  if 0 ≤ exponent then divHalfEven steps (gridScale * tenPow exponent.toNat)
  else divHalfEven (steps * tenPow (-exponent).toNat) gridScale

/-- The rounded digits of a count of steps, as one number of `precision` digits, and the decimal
exponent of the first of them.  Rounding up `99...9` yields one digit more, and then the last one,
a zero, is dropped. -/
def leadingDigits (precision : Nat) (steps : Nat) : Nat × Int :=
  if steps = 0 then (0, 0)
  else
    let exponent := decimalExponent steps
    let rounded := roundAt steps (exponent - (precision - 1))
    if rounded = tenPow precision then (tenPow (precision - 1), exponent + 1) else (rounded, exponent)

/-! ## the text -/

def dropTrailingZeros (digits : List Char) : List Char :=
  (digits.reverse.dropWhile (· == '0')).reverse

/-- the digits of a number, with zeros in front up to a least count -/
def paddedDigits (least : Nat) (n : Nat) : List Char := (Nat.toDigits 10 n).leftpad least '0'

/-- digits with the point before the last `decimals` of them -/
def positionalText (digits decimals : Nat) : List Char :=
  let ds := paddedDigits (decimals + 1) digits
  let fraction := dropTrailingZeros (ds.drop (ds.length - decimals))
  ds.take (ds.length - decimals) ++ '.' :: (if fraction = [] then ['0'] else fraction)

/-- digits with the point behind the first, and the exponent -/
def exponentText (digits : Nat) (exponent : Int) : List Char :=
  let ds := Nat.toDigits 10 digits
  let fraction := dropTrailingZeros (ds.drop 1)
  ds.take 1 ++ (if fraction = [] then [] else '.' :: fraction)
    ++ 'e' :: (if exponent < 0 then '-' else '+') :: paddedDigits 2 exponent.natAbs

def DecimalFormat.text (format : DecimalFormat) (steps : Nat) : List Char :=
  let (digits, exponent) := leadingDigits format.precision steps
  if format.leastPositional ≤ exponent ∧ exponent < format.precision then
    positionalText digits (format.precision - 1 - exponent).toNat
  else exponentText digits exponent

namespace Binary64

def render (x : Binary64) : String :=
  let sign := if x.isNegative then ['-'] else []
  String.ofList <| sign ++
    match x.exact with
    | .nan => ['n', 'a', 'n']
    | .negInfinity | .posInfinity => ['i', 'n', 'f']
    | .finite _ => numberFormat.text x.magnitude

end Binary64

end ScriptTables
