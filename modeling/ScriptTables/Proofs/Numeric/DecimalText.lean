import Mathlib.Data.List.DropRight
import ScriptTables.Numeric.Numeral
import ScriptTables.Proofs.Numeric.Leading

/-!
# Decimal texts

A decimal text is a sign, digits with or without a point among them, and an exponent or none.  What it
writes is a rational number.

* `DecimalText`             a decimal text, taken apart;
* `DecimalText.value`       the number that it writes;
* `DecimalText.leading`     the decimal exponent of that number;
* `DecimalText.significant` the digits from the first one on that is not zero;
* `DecimalText.ofDigits`    the digits of a number with a point among them, less the zeros at their end.
-/

namespace ScriptTables

/-! ## digits -/

section
variable (ds : List Char)

theorem dropTrailingZeros_append_zeros :
    ∃ count, dropTrailingZeros ds ++ List.replicate count '0' = ds := by
  have hzeros : ∀ c ∈ ds.rtakeWhile (· == '0'), c = '0' := by
    intro c hc
    have hzero := List.mem_rtakeWhile_imp hc
    exact eq_of_beq hzero
  refine ⟨(ds.rtakeWhile (· == '0')).length, ?_⟩
  rw [← List.eq_replicate_of_mem hzeros]
  exact List.rdropWhile_append_rtakeWhile

theorem mem_of_mem_dropTrailingZeros {c : Char} (h : c ∈ dropTrailingZeros ds) : c ∈ ds := by
  obtain ⟨count, hcount⟩ := dropTrailingZeros_append_zeros ds
  exact hcount ▸ List.mem_append_left _ h

theorem getLast?_dropTrailingZeros : (dropTrailingZeros ds).getLast? ≠ some '0' := by
  intro hlast
  obtain ⟨hne, hzero⟩ := List.mem_getLast?_eq_getLast hlast
  exact List.rdropWhile_last_not (· == '0') ds hne (beq_of_eq hzero.symm)

end

section
variable (least n : ℕ)

theorem paddedDigits_ne_nil : paddedDigits least n ≠ [] :=
  List.append_ne_nil_of_right_ne_nil _ Nat.toDigits_ne_nil

theorem isDigit_of_mem_paddedDigits : ∀ c ∈ paddedDigits least n, c.isDigit = true := by
  intro c hc
  rcases List.mem_append.mp hc with hpad | hdigit
  · rw [List.eq_of_mem_replicate hpad]
    rfl
  · exact Nat.isDigit_of_mem_toDigits (by decide) (by decide) hdigit

theorem length_paddedDigits : (paddedDigits least n).length = max least (Nat.toDigits 10 n).length :=
  List.length_leftpad

/-- zeros in front do not count -/
theorem ofDigitChars_paddedDigits : Nat.ofDigitChars 10 (paddedDigits least n) 0 = n := by
  rw [paddedDigits, List.leftpad, Nat.ofDigitChars_append, Nat.ofDigitChars_replicate_zero, Nat.mul_zero,
    Nat.ofDigitChars_ten_toDigits]

theorem paddedDigits_zero : paddedDigits 0 n = Nat.toDigits 10 n := by
  rw [paddedDigits, List.leftpad, Nat.zero_sub, List.replicate_zero, List.nil_append]

theorem length_dropWhile_paddedDigits {ds : List Char} (h : ds <+: paddedDigits least n) :
    (ds.dropWhile (· == '0')).length ≤ (Nat.toDigits 10 n).length := by
  obtain ⟨rest, hrest⟩ := h
  have hfront : (ds.dropWhile (· == '0')).length ≤ ((ds ++ rest).dropWhile (· == '0')).length := by
    rw [List.dropWhile_append]
    split
    · next hempty =>
      rw [List.isEmpty_iff.mp hempty]
      exact Nat.zero_le _
    · rw [List.length_append]
      exact Nat.le_add_right _ _
  refine Nat.le_trans hfront ?_
  rw [hrest, paddedDigits, List.leftpad, List.dropWhile_append_of_pos]
  · exact List.length_dropWhile_le _ _
  · exact fun c hc => beq_of_eq (List.eq_of_mem_replicate hc)

end

/-- the number that digits on the two sides of a point write -/
def pointed (whole fraction : List Char) : ℚ :=
  Nat.ofDigitChars 10 (whole ++ fraction) 0 * 10 ^ (-(fraction.length : ℤ))

theorem pointed_append_zeros (whole fraction : List Char) (count : ℕ) :
    pointed whole (fraction ++ List.replicate count '0') = pointed whole fraction := by
  have hlength : (-((fraction ++ List.replicate count '0').length : ℤ))
      = -(fraction.length : ℤ) - count := by
    rw [List.length_append, List.length_replicate]
    omega
  rw [pointed, pointed, hlength, ← List.append_assoc, Nat.ofDigitChars_append,
    Nat.ofDigitChars_replicate_zero, Nat.cast_mul, cast_ten_pow, zpow_sub₀ (by norm_num)]
  have hpow := (ten_zpow_pos count).ne'
  field_simp

theorem pointed_dropTrailingZeros (whole fraction : List Char) :
    pointed whole (dropTrailingZeros fraction) = pointed whole fraction := by
  obtain ⟨count, hcount⟩ := dropTrailingZeros_append_zeros fraction
  rw [← pointed_append_zeros whole (dropTrailingZeros fraction) count, hcount]

/-! ## texts -/

/-- an exponent in a text: a sign, which is always there, and one or more decimal digits -/
structure ExponentPart where
  negative : Bool
  digits : List Char
  digits_ne_nil : digits ≠ []
  digits_decimal : ∀ c ∈ digits, c.isDigit = true

namespace ExponentPart

def chars (e : ExponentPart) : List Char := 'e' :: (if e.negative then '-' else '+') :: e.digits

def value (e : ExponentPart) : ℤ := withSign e.negative (Nat.ofDigitChars 10 e.digits 0)

/-- an integer as an exponent is written with two digits at least -/
def ofInteger (i : ℤ) : ExponentPart where
  negative := decide (i < 0)
  digits := paddedDigits 2 i.natAbs
  digits_ne_nil := paddedDigits_ne_nil 2 i.natAbs
  digits_decimal := isDigit_of_mem_paddedDigits 2 i.natAbs

theorem value_ofInteger (i : ℤ) : (ofInteger i).value = i := by
  show withSign (decide (i < 0)) (Nat.ofDigitChars 10 (paddedDigits 2 i.natAbs) 0) = i
  rw [ofDigitChars_paddedDigits, withSign]
  by_cases h : i < 0
  · rw [if_pos (decide_eq_true h)]
    omega
  · rw [if_neg (mt of_decide_eq_true h)]
    omega

theorem two_le_length_ofInteger (i : ℤ) : 2 ≤ (ofInteger i).digits.length := by
  show 2 ≤ (paddedDigits 2 i.natAbs).length
  rw [length_paddedDigits]
  exact Nat.le_max_left _ _

end ExponentPart

/-- a decimal text: a minus or no sign, decimal digits, of which those of the fraction stand behind a
point, and an exponent or none -/
structure DecimalText where
  negative : Bool
  whole : List Char
  fraction : List Char
  exponent : Option ExponentPart
  whole_ne_nil : whole ≠ []
  whole_decimal : ∀ c ∈ whole, c.isDigit = true
  fraction_decimal : ∀ c ∈ fraction, c.isDigit = true

namespace DecimalText

section
variable (t : DecimalText)

/-- the text without its sign; where the fraction has no digits, there is no point -/
def unsigned : List Char :=
  t.whole ++ (if t.fraction = [] then [] else '.' :: t.fraction)
    ++ match t.exponent with
      | none => []
      | some e => e.chars

def text : String := String.ofList ((if t.negative then ['-'] else []) ++ t.unsigned)

def exponentValue : ℤ :=
  match t.exponent with
  | none => 0
  | some e => e.value

/-- the number that is written, its sign apart -/
def magnitude : ℚ := pointed t.whole t.fraction * 10 ^ t.exponentValue

def value : ℚ := if t.negative then -t.magnitude else t.magnitude

/-- the decimal exponent of the number: that of its first digit, and zero for zero -/
def leading : ℤ := Int.log 10 |t.value|

/-- the significant digits, which are those from the first one on that is not zero; a `.0` at the end is
not among them -/
def significant : List Char :=
  (t.whole ++ if t.fraction = ['0'] then [] else t.fraction).dropWhile (· == '0')

theorem magnitude_nonneg : 0 ≤ t.magnitude :=
  mul_nonneg (mul_nonneg (Nat.cast_nonneg _) (ten_zpow_pos _).le) (ten_zpow_pos _).le

theorem abs_value : |t.value| = t.magnitude := by
  rw [value]
  split
  · rw [abs_neg, abs_of_nonneg t.magnitude_nonneg]
  · rw [abs_of_nonneg t.magnitude_nonneg]

theorem value_eq_zero_iff : t.value = 0 ↔ t.magnitude = 0 := by
  rw [← abs_eq_zero, abs_value]

theorem abs_value_sub (q : ℚ) :
    |t.value - (if t.negative then -1 else 1) * q| = |t.magnitude - q| := by
  rw [value]
  split
  · rw [neg_one_mul, neg_sub_neg, abs_sub_comm]
  · rw [one_mul]

theorem leading_eq : t.leading = Int.log 10 t.magnitude := by
  rw [leading, abs_value]

end

/-! ### from digits -/

section
variable (negative : Bool) (least digits : ℕ) {count : ℕ} (hcount : 0 < count)
  (exponent : Option ExponentPart)

/-- The digits of a number, filled up with zeros in front, with a point behind the first `count` of them.
The zeros at their end are dropped, but where there is no exponent, a digit stays behind the point. -/
def ofDigits : DecimalText where
  negative := negative
  whole := (paddedDigits least digits).take count
  fraction :=
    let fraction := dropTrailingZeros ((paddedDigits least digits).drop count)
    if fraction = [] ∧ exponent.isNone then ['0'] else fraction
  exponent := exponent
  whole_ne_nil := by
    rw [Ne, List.take_eq_nil_iff, not_or]
    exact ⟨hcount.ne', paddedDigits_ne_nil least digits⟩
  whole_decimal := fun c hc => isDigit_of_mem_paddedDigits least digits c (List.mem_of_mem_take hc)
  fraction_decimal := by
    dsimp only
    split
    · exact fun c hc => List.mem_singleton.mp hc ▸ rfl
    · exact fun c hc => isDigit_of_mem_paddedDigits least digits c
        (List.mem_of_mem_drop (mem_of_mem_dropTrailingZeros _ hc))

theorem fraction_ofDigits :
    ((ofDigits negative least digits hcount exponent).fraction = ['0'] ∧ exponent = none ∧
        dropTrailingZeros ((paddedDigits least digits).drop count) = []) ∨
      (ofDigits negative least digits hcount exponent).fraction
          = dropTrailingZeros ((paddedDigits least digits).drop count) ∧
        (exponent = none → dropTrailingZeros ((paddedDigits least digits).drop count) ≠ []) := by
  by_cases hnone : dropTrailingZeros ((paddedDigits least digits).drop count) = [] ∧ exponent.isNone
  · exact .inl ⟨if_pos hnone, Option.isNone_iff_eq_none.mp hnone.2, hnone.1⟩
  · exact .inr ⟨if_neg hnone, fun hexponent hnil => hnone ⟨hnil, hexponent ▸ rfl⟩⟩

theorem pointed_ofDigits :
    pointed (ofDigits negative least digits hcount exponent).whole
        (ofDigits negative least digits hcount exponent).fraction
      = pointed ((paddedDigits least digits).take count) ((paddedDigits least digits).drop count) := by
  rw [← pointed_dropTrailingZeros _ ((paddedDigits least digits).drop count)]
  rcases fraction_ofDigits negative least digits hcount exponent with ⟨hzero, -, hnil⟩ | ⟨hkept, -⟩
  · rw [hzero, hnil]
    exact pointed_append_zeros _ [] 1
  · rw [hkept]
    rfl

theorem magnitude_ofDigits :
    (ofDigits negative least digits hcount exponent).magnitude
      = digits * 10 ^ ((ofDigits negative least digits hcount exponent).exponentValue
          - ((paddedDigits least digits).length - count : ℕ)) := by
  rw [magnitude, pointed_ofDigits, pointed, List.take_append_drop, ofDigitChars_paddedDigits,
    List.length_drop, mul_assoc, ← ten_zpow_add, neg_add_eq_sub]

theorem significant_ofDigits :
    (ofDigits negative least digits hcount exponent).significant
      = ((paddedDigits least digits).take count
          ++ dropTrailingZeros ((paddedDigits least digits).drop count)).dropWhile (· == '0') := by
  rw [significant]
  rcases fraction_ofDigits negative least digits hcount exponent with ⟨hzero, -, hnil⟩ | ⟨hkept, -⟩
  · rw [if_pos hzero, hnil]
    rfl
  · have hlast := getLast?_dropTrailingZeros ((paddedDigits least digits).drop count)
    rw [if_neg fun hzero => hlast (by rw [← hkept, hzero]; rfl), hkept]
    rfl

theorem length_significant_ofDigits :
    (ofDigits negative least digits hcount exponent).significant.length
      ≤ (Nat.toDigits 10 digits).length := by
  obtain ⟨zeros, hzeros⟩ := dropTrailingZeros_append_zeros ((paddedDigits least digits).drop count)
  rw [significant_ofDigits]
  refine length_dropWhile_paddedDigits least digits ⟨List.replicate zeros '0', ?_⟩
  rw [List.append_assoc, hzeros, List.take_append_drop]

theorem trimmed_ofDigits
    (h : (ofDigits negative least digits hcount exponent).fraction.getLast? = some '0') :
    (ofDigits negative least digits hcount exponent).fraction = ['0'] ∧ exponent = none := by
  rcases fraction_ofDigits negative least digits hcount exponent with ⟨hzero, hnone, -⟩ | ⟨hkept, -⟩
  · exact ⟨hzero, hnone⟩
  · exact absurd (hkept ▸ h) (getLast?_dropTrailingZeros _)

theorem fraction_ofDigits_ne_nil (h : exponent = none) :
    (ofDigits negative least digits hcount exponent).fraction ≠ [] := by
  rcases fraction_ofDigits negative least digits hcount exponent with ⟨hzero, -⟩ | ⟨hkept, hsome⟩
  · exact hzero ▸ List.cons_ne_nil _ _
  · exact hkept ▸ hsome h

end

end DecimalText

end ScriptTables
