import ScriptTables.Proofs.Value.Rendering

/-!
# Printing a number and trimming the print

The text of a float can also be had from prints of a fixed length.  A print with an exponent comes
first; its exponent tells whether a second one, with a fixed number of decimals, takes its place.  The
zeros at the end and a point behind which nothing is left are trimmed, and what would read as an integer
gets a fraction.  The second print rounds the float again, but at the same digit.

* `fixedText`, `mantissaText`   the prints;
* `trimZeros`                   what is left of a print;
* `DecimalFormat.printed`       the text that is made of them;
* `render_eq_printed`           it is the text of the float.
-/

namespace ScriptTables

/-! ## prints -/

/-- digits on the two sides of a point, which is only there when digits follow it -/
def withPoint (whole fraction : List Char) : List Char :=
  whole ++ if fraction = [] then [] else '.' :: fraction

/-- digits of which the last `decimals` stand behind the point -/
def pointedText (digits decimals : ℕ) : List Char :=
  let ds := paddedDigits (decimals + 1) digits
  withPoint (ds.take (ds.length - decimals)) (ds.drop (ds.length - decimals))

/-- a magnitude with so many decimals -/
def fixedText (steps decimals : ℕ) : List Char := pointedText (roundAt steps (-decimals)) decimals

/-- so many digits, of which the first one stands in front of the point -/
def mantissaText (precision digits : ℕ) : List Char :=
  let ds := paddedDigits precision digits
  withPoint (ds.take 1) (ds.drop 1)

/-- in a text with a point, zeros at the end are dropped, and then points -/
def trimZeros (text : List Char) : List Char :=
  if '.' ∈ text then (text.rdropWhile (· == '0')).rdropWhile (· == '.') else text

def inInteger (c : Char) : Bool := c == '-' || c.isDigit

def signText (negative : Bool) : List Char := if negative then ['-'] else []

/-- text that reads as an integer gets a fraction -/
def withFraction (text : List Char) : List Char :=
  if text.all inInteger then text ++ ['.', '0'] else text

/-- The text of a magnitude with a sign: a print with an exponent, or a second one without. -/
def DecimalFormat.printed (format : DecimalFormat) (negative : Bool) (steps : ℕ) : List Char :=
  let (digits, exponent) := leadingDigits format.precision steps
  withFraction <|
    if format.IsPositional exponent then
      trimZeros (signText negative ++ fixedText steps (format.precision - 1 - exponent).toNat)
    else
      trimZeros (signText negative ++ mantissaText format.precision digits)
        ++ (ExponentPart.ofInteger exponent).chars

/-! ## trimming -/

section
variable {p : Char → Bool} {whole fraction : List Char}

theorem rdropWhile_append_cons {c : Char} (hc : p c = false) (before after : List Char) :
    (before ++ c :: after).rdropWhile p = before ++ c :: after.rdropWhile p := by
  have hstop : (c :: before.reverse).dropWhile p = c :: before.reverse :=
    List.dropWhile_cons_of_neg (by rw [hc]; exact Bool.false_ne_true)
  rw [List.rdropWhile, List.reverse_append, List.reverse_cons, List.append_assoc, List.singleton_append,
    List.dropWhile_append, hstop, List.rdropWhile]
  split
  · next hnil =>
    rw [List.isEmpty_iff.mp hnil, List.reverse_cons, List.reverse_reverse, List.reverse_nil]
  · rw [List.reverse_append, List.reverse_cons, List.reverse_reverse, List.append_assoc,
      List.singleton_append]

theorem rdropWhile_of_last {cs : List Char} (h : ∀ c ∈ cs.getLast?, p c = false) :
    cs.rdropWhile p = cs := by
  refine List.rdropWhile_eq_self_iff.mpr fun hne => ?_
  rw [h _ (List.getLast?_eq_some_getLast hne)]
  exact Bool.false_ne_true

theorem trimZeros_withPoint (hwhole : '.' ∉ whole) (hfraction : '.' ∉ fraction) :
    trimZeros (withPoint whole fraction) = withPoint whole (dropTrailingZeros fraction) := by
  have hkept : ∀ {cs : List Char}, '.' ∉ cs → ∀ c ∈ cs.getLast?, (c == '.') = false :=
    fun hcs c hc => beq_eq_false_iff_ne.mpr fun heq => hcs (heq ▸ List.mem_of_mem_getLast? hc)
  by_cases hnone : fraction = []
  · subst hnone
    rw [withPoint, if_pos rfl, List.append_nil, trimZeros, if_neg hwhole]
    exact (List.append_nil whole).symm
  · have hpoint : '.' ∈ whole ++ '.' :: fraction := List.mem_append_right _ List.mem_cons_self
    have hzeros : (whole ++ '.' :: fraction).rdropWhile (· == '0')
        = whole ++ '.' :: dropTrailingZeros fraction := rdropWhile_append_cons rfl whole fraction
    rw [withPoint, if_neg hnone, trimZeros, if_pos hpoint, hzeros, withPoint]
    by_cases hempty : dropTrailingZeros fraction = []
    · -- nothing is left behind the point
      rw [hempty, if_pos rfl, List.append_nil, List.rdropWhile_concat_pos _ _ _ rfl]
      exact rdropWhile_of_last (hkept hwhole)
    · rw [if_neg hempty]
      refine rdropWhile_of_last ?_
      rw [List.getLast?_append_of_ne_nil _ (List.cons_ne_nil _ _), List.getLast?_cons_of_ne_nil hempty]
      exact hkept fun hmem => hfraction (mem_of_mem_dropTrailingZeros _ hmem)

theorem append_withPoint (sign whole fraction : List Char) :
    sign ++ withPoint whole fraction = withPoint (sign ++ whole) fraction :=
  (List.append_assoc _ _ _).symm

end

/-! ## the characters of a print -/

section
variable {negative : Bool} {least n : ℕ}

theorem inInteger_of_mem_signText : ∀ c ∈ signText negative, inInteger c = true := by
  intro c hc
  cases negative with
  | false => exact absurd hc List.not_mem_nil
  | true =>
    obtain rfl : c = '-' := List.mem_singleton.mp hc
    rfl

theorem inInteger_of_mem_paddedDigits : ∀ c ∈ paddedDigits least n, inInteger c = true := by
  intro c hc
  rw [inInteger, isDigit_of_mem_paddedDigits least n c hc, Bool.or_true]

theorem not_mem_of_inInteger {cs : List Char} (h : ∀ c ∈ cs, inInteger c = true) : '.' ∉ cs :=
  fun hmem => absurd (h _ hmem) (by decide)

theorem inInteger_whole (count : ℕ) :
    ∀ c ∈ signText negative ++ (paddedDigits least n).take count, inInteger c = true := by
  intro c hc
  rcases List.mem_append.mp hc with hsign | hdigit
  · exact inInteger_of_mem_signText c hsign
  · exact inInteger_of_mem_paddedDigits c (List.mem_of_mem_take hdigit)

theorem trimZeros_print (count : ℕ) :
    trimZeros (signText negative
        ++ withPoint ((paddedDigits least n).take count) ((paddedDigits least n).drop count))
      = signText negative ++ withPoint ((paddedDigits least n).take count)
          (dropTrailingZeros ((paddedDigits least n).drop count)) := by
  rw [append_withPoint, append_withPoint]
  refine trimZeros_withPoint (not_mem_of_inInteger (inInteger_whole count)) ?_
  exact not_mem_of_inInteger fun c hc => inInteger_of_mem_paddedDigits c (List.mem_of_mem_drop hc)

end

/-! ## the text -/

section
variable (negative : Bool) (digits : ℕ)

theorem withFraction_of_mem {text : List Char} {c : Char} (hc : c ∈ text)
    (hforeign : inInteger c = false) : withFraction text = text := by
  refine if_neg fun hall => ?_
  rw [List.all_eq_true.mp hall c hc] at hforeign
  cases hforeign

theorem withFraction_fixed (decimals : ℕ) :
    withFraction (trimZeros (signText negative ++ pointedText digits decimals))
      = signText negative ++ positionalText digits decimals := by
  rw [pointedText, trimZeros_print, withPoint, positionalText]
  by_cases hempty : dropTrailingZeros ((paddedDigits (decimals + 1) digits).drop
      ((paddedDigits (decimals + 1) digits).length - decimals)) = []
  · -- all that is left is in front of the point
    rw [if_pos hempty, List.append_nil, withFraction, if_pos (List.all_eq_true.mpr (inInteger_whole _)),
      if_pos hempty, List.append_assoc]
  · rw [if_neg hempty, if_neg hempty]
    exact withFraction_of_mem (List.mem_append_right _ (List.mem_append_right _ List.mem_cons_self)) rfl

theorem withFraction_mantissa {precision : ℕ} (hlength : (Nat.toDigits 10 digits).length = precision)
    (exponent : ℤ) :
    withFraction (trimZeros (signText negative ++ mantissaText precision digits)
        ++ (ExponentPart.ofInteger exponent).chars)
      = signText negative ++ exponentText digits exponent := by
  have hdigits : paddedDigits precision digits = Nat.toDigits 10 digits := by
    rw [paddedDigits, List.leftpad, hlength, Nat.sub_self, List.replicate_zero, List.nil_append]
  rw [mantissaText, trimZeros_print, hdigits, List.append_assoc]
  refine (withFraction_of_mem (c := 'e') ?_ rfl).trans ?_
  · exact List.mem_append_right _ (List.mem_append_right _ List.mem_cons_self)
  · simp [withPoint, exponentText, ExponentPart.chars, ExponentPart.ofInteger]

end

namespace DecimalFormat

variable (format : DecimalFormat) (negative : Bool) (steps : ℕ)

/-- the second print rounds at the digit that the first one ended with -/
theorem roundAt_decimals (hp : 0 < format.precision)
    (h : format.IsPositional (leadingDigits format.precision steps).2) :
    roundAt steps (-((format.precision - 1 - (leadingDigits format.precision steps).2).toNat : ℤ))
      = (leadingDigits format.precision steps).1 := by
  have hexponent := h.2
  have hunit : -((format.precision - 1 - (leadingDigits format.precision steps).2).toNat : ℤ)
      = (leadingDigits format.precision steps).2 - (format.precision - 1) := by omega
  rw [hunit, roundAt_leadingDigits hp]

/-- **Printed twice and trimmed, a magnitude has the text that its digits make, rounded once.** -/
theorem printed_eq (hp : 0 < format.precision) (hzero : format.IsPositional 0) :
    format.printed negative steps = signText negative ++ format.text steps := by
  by_cases h : format.IsPositional (leadingDigits format.precision steps).2
  · have hprinted : format.printed negative steps = withFraction (trimZeros (signText negative
        ++ fixedText steps (format.precision - 1 - (leadingDigits format.precision steps).2).toNat)) :=
      congrArg withFraction (if_pos h)
    have htext : format.text steps = positionalText (leadingDigits format.precision steps).1
        (format.precision - 1 - (leadingDigits format.precision steps).2).toNat := if_pos h
    rw [hprinted, htext, fixedText, format.roundAt_decimals steps hp h, withFraction_fixed]
  · have hprinted : format.printed negative steps = withFraction (trimZeros (signText negative
        ++ mantissaText format.precision (leadingDigits format.precision steps).1)
        ++ (ExponentPart.ofInteger (leadingDigits format.precision steps).2).chars) :=
      congrArg withFraction (if_neg h)
    have htext : format.text steps = exponentText (leadingDigits format.precision steps).1
        (leadingDigits format.precision steps).2 := if_neg h
    have hlength := (leading_leadingDigits hp steps).length
      (format.digits_ne_zero_of_not_positional steps hp hzero h)
    rw [hprinted, htext, withFraction_mantissa _ _ hlength]

end DecimalFormat

/-- **The text of a finite float is its print with fourteen digits and an exponent, or where that
exponent is from `-4` to `13`, a second print with as many decimals as leave fourteen digits; the zeros
at its end are trimmed, and it is never the text of an integer.** -/
theorem Binary64.render_eq_printed {x : Binary64} (h : x.exact = .finite (x.signed x.magnitude)) :
    x.render = String.ofList (numberFormat.printed x.isNegative x.magnitude) := by
  rw [render, h, numberFormat.printed_eq x.isNegative x.magnitude (by decide) (by decide)]
  rfl

end ScriptTables
