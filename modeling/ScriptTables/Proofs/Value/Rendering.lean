import ScriptTables.Proofs.Numeric.DecimalText
import ScriptTables.Proofs.Value.Coercion

/-!
# How floats are written

The exponent of the rounded digits decides how a float is written.  As that exponent is the one the
digits were rounded at, the text is as near to the float as fourteen digits allow, also where rounding
carried.

* `DecimalFormat.decimalText`   the text of a magnitude, taken apart;
* `Binary64.Rendered`           what is asked of the text of a float;
* `render_rounds`               it is met for every finite float, and no float is written as an integer.
-/

namespace ScriptTables

namespace DecimalText

variable (negative : Bool) (digits : ℕ)

/-! ## the two notations -/

theorem decimals_lt_length (decimals : ℕ) :
    0 < (paddedDigits (decimals + 1) digits).length - decimals := by
  rw [length_paddedDigits]
  omega

/-- digits of which the last `decimals` stand behind the point -/
def positional (decimals : ℕ) : DecimalText :=
  .ofDigits negative (decimals + 1) digits (decimals_lt_length digits decimals) none

/-- digits of which the first one stands in front of the point, and an exponent -/
def scientific (exponent : ℤ) : DecimalText :=
  .ofDigits negative 0 digits Nat.one_pos (some (.ofInteger exponent))

theorem unsigned_positional (decimals : ℕ) :
    (positional negative digits decimals).unsigned = positionalText digits decimals := by
  have hne := fraction_ofDigits_ne_nil negative (decimals + 1) digits
    (decimals_lt_length digits decimals) none rfl
  rw [unsigned, positional, if_neg hne]
  exact (List.append_nil _).trans (by simp [ofDigits, positionalText])

theorem unsigned_scientific (exponent : ℤ) :
    (scientific negative digits exponent).unsigned = exponentText digits exponent := by
  simp [unsigned, scientific, ofDigits, exponentText, ExponentPart.ofInteger, ExponentPart.chars,
    paddedDigits_zero]

theorem magnitude_positional (decimals : ℕ) :
    (positional negative digits decimals).magnitude = digits * 10 ^ (-(decimals : ℤ)) := by
  have hlength := length_paddedDigits (decimals + 1) digits
  rw [positional, magnitude_ofDigits]
  congr 2
  show (0 : ℤ) - _ = _
  omega

theorem magnitude_scientific (exponent : ℤ) :
    (scientific negative digits exponent).magnitude
      = digits * 10 ^ (exponent - ((Nat.toDigits 10 digits).length - 1 : ℕ)) := by
  rw [scientific, magnitude_ofDigits, paddedDigits_zero]
  congr 3
  exact ExponentPart.value_ofInteger exponent

end DecimalText

/-! ## the text of a magnitude -/

namespace DecimalFormat

variable (format : DecimalFormat) (negative : Bool) (steps : ℕ)

/-- whether digits of which the first one stands at an exponent are written without one -/
def IsPositional (exponent : ℤ) : Prop :=
  format.leastPositional ≤ exponent ∧ exponent < format.precision

instance (exponent : ℤ) : Decidable (format.IsPositional exponent) := instDecidableAnd

def decimalText : DecimalText :=
  let (digits, exponent) := leadingDigits format.precision steps
  if format.IsPositional exponent then
    .positional negative digits (format.precision - 1 - exponent).toNat
  else .scientific negative digits exponent

variable {format steps}

theorem decimalText_of_positional
    (h : format.IsPositional (leadingDigits format.precision steps).2) :
    format.decimalText negative steps
      = .positional negative (leadingDigits format.precision steps).1
          (format.precision - 1 - (leadingDigits format.precision steps).2).toNat := if_pos h

theorem decimalText_of_not_positional
    (h : ¬format.IsPositional (leadingDigits format.precision steps).2) :
    format.decimalText negative steps
      = .scientific negative (leadingDigits format.precision steps).1
          (leadingDigits format.precision steps).2 := if_neg h

variable (format steps)

theorem unsigned_decimalText : (format.decimalText negative steps).unsigned = format.text steps := by
  by_cases h : format.IsPositional (leadingDigits format.precision steps).2
  · rw [decimalText_of_positional negative h, DecimalText.unsigned_positional]
    exact (if_pos h).symm
  · rw [decimalText_of_not_positional negative h, DecimalText.unsigned_scientific]
    exact (if_neg h).symm

/-- in either notation the text consists of the rounded digits -/
theorem exists_decimalText :
    ∃ (least count : ℕ) (hcount : 0 < count) (exponent : Option ExponentPart),
      format.decimalText negative steps
        = .ofDigits negative least (leadingDigits format.precision steps).1 hcount exponent := by
  by_cases h : format.IsPositional (leadingDigits format.precision steps).2
  · exact ⟨_, _, _, _, decimalText_of_positional negative h⟩
  · exact ⟨_, _, _, _, decimalText_of_not_positional negative h⟩

theorem negative_decimalText : (format.decimalText negative steps).negative = negative := by
  obtain ⟨least, count, hcount, exponent, htext⟩ := format.exists_decimalText negative steps
  rw [htext]
  rfl

theorem trimmed_decimalText
    (h : (format.decimalText negative steps).fraction.getLast? = some '0') :
    (format.decimalText negative steps).fraction = ['0'] ∧
      (format.decimalText negative steps).exponent = none := by
  obtain ⟨least, count, hcount, exponent, htext⟩ := format.exists_decimalText negative steps
  rw [htext] at h ⊢
  exact DecimalText.trimmed_ofDigits _ _ _ hcount exponent h

theorem fraction_decimalText_ne_nil (h : (format.decimalText negative steps).exponent = none) :
    (format.decimalText negative steps).fraction ≠ [] := by
  obtain ⟨least, count, hcount, exponent, htext⟩ := format.exists_decimalText negative steps
  rw [htext] at h ⊢
  exact DecimalText.fraction_ofDigits_ne_nil _ _ _ hcount exponent h

section
variable (hp : 0 < format.precision)
include hp

theorem length_significant_decimalText :
    (format.decimalText negative steps).significant.length ≤ format.precision := by
  obtain ⟨least, count, hcount, exponent, htext⟩ := format.exists_decimalText negative steps
  rw [htext]
  refine Nat.le_trans (DecimalText.length_significant_ofDigits _ _ _ hcount exponent) ?_
  by_cases hdigits : (leadingDigits format.precision steps).1 = 0
  · rw [hdigits]
    exact hp
  · exact Nat.le_of_eq ((leading_leadingDigits hp steps).length hdigits)

/-- zero stands at the exponent zero -/
theorem digits_ne_zero_of_not_positional (hzero : format.IsPositional 0)
    (h : ¬format.IsPositional (leadingDigits format.precision steps).2) :
    (leadingDigits format.precision steps).1 ≠ 0 := by
  intro hnone
  have hlog := (leading_leadingDigits hp steps).log
  rw [hnone, Nat.cast_zero, zero_mul, Int.log_zero_right] at hlog
  exact h (hlog ▸ hzero)

/-- the text writes the rounded digits at their exponent -/
theorem magnitude_decimalText (hzero : format.IsPositional 0) :
    (format.decimalText negative steps).magnitude
      = (leadingDigits format.precision steps).1
          * 10 ^ ((leadingDigits format.precision steps).2 - (format.precision - 1)) := by
  have hleading := leading_leadingDigits hp steps
  by_cases h : format.IsPositional (leadingDigits format.precision steps).2
  · rw [decimalText_of_positional negative h, DecimalText.magnitude_positional]
    have hexponent := h.2
    congr 2
    omega
  · rw [decimalText_of_not_positional negative h, DecimalText.magnitude_scientific]
    rw [hleading.length (format.digits_ne_zero_of_not_positional steps hp hzero h)]
    congr 2
    omega

theorem leading_decimalText (hzero : format.IsPositional 0) :
    (format.decimalText negative steps).leading = (leadingDigits format.precision steps).2 := by
  rw [DecimalText.leading_eq, format.magnitude_decimalText negative steps hp hzero]
  exact (leading_leadingDigits hp steps).log

end

end DecimalFormat

/-! ## the text of a float -/

namespace Binary64

variable {x : Binary64} {q : ℚ}

/-- What is asked of the text of a float that amounts to `q`.  The exponent of zero is zero. -/
structure Rendered (x : Binary64) (q : ℚ) (t : DecimalText) : Prop where
  text : x.render = t.text
  sign : t.negative = x.isNegative
  zero : t.value = 0 ↔ q = 0
  near : |t.value - q| ≤ 1 / 2 * 10 ^ (t.leading - 13)
  positional : -4 ≤ t.leading ∧ t.leading ≤ 13 → t.exponent = none ∧ t.fraction ≠ []
  scientific : ¬(-4 ≤ t.leading ∧ t.leading ≤ 13) → ∃ e, t.exponent = some e ∧ 2 ≤ e.digits.length
  significant : t.significant.length ≤ 14
  trimmed : t.fraction.getLast? = some '0' → t.fraction = ['0'] ∧ t.exponent = none

theorem finite_of_amount? (h : x.amount? = some (.ofRat q)) :
    x.exact = .finite (x.signed x.magnitude) ∧
      q = (if x.isNegative then -1 else 1) * ((x.magnitude : ℚ) / gridScale) := by
  rw [amount?_eq] at h
  rcases x.exact_cases with ⟨-, -, hinfinite⟩ | hnan | hfinite
  · rw [hinfinite] at h
    have hbot := (Amount.bot_lt_ofRat q).ne
    have htop := (Amount.ofRat_lt_top q).ne'
    cases hnegative : x.isNegative <;> rw [hnegative] at h
    · exact absurd (Option.some.inj h) htop
    · exact absurd (Option.some.inj h) hbot
  · rw [hnan] at h
    cases h
  · rw [hfinite, Exact.amount?, ratOfSteps_signed] at h
    exact ⟨hfinite, (Amount.ofRat_inj.mp (Option.some.inj h)).symm⟩

theorem render_of_finite (h : x.exact = .finite (x.signed x.magnitude)) :
    x.render = (numberFormat.decimalText x.isNegative x.magnitude).text := by
  rw [render, h, DecimalText.text, DecimalFormat.negative_decimalText,
    DecimalFormat.unsigned_decimalText]

theorem rendered (h : x.amount? = some (.ofRat q)) :
    Rendered x q (numberFormat.decimalText x.isNegative x.magnitude) := by
  obtain ⟨hfinite, hq⟩ := finite_of_amount? h
  have hp : 0 < numberFormat.precision := by decide
  have hzero : numberFormat.IsPositional 0 := by decide
  have hround := leading_leadingDigits hp x.magnitude
  have hsign := numberFormat.negative_decimalText x.isNegative x.magnitude
  have hmagnitude := numberFormat.magnitude_decimalText x.isNegative x.magnitude hp hzero
  have hleading := numberFormat.leading_decimalText x.isNegative x.magnitude hp hzero
  constructor
  case text => exact render_of_finite hfinite
  case sign => exact hsign
  case zero =>
    have hunit := (ten_zpow_pos ((leadingDigits numberFormat.precision x.magnitude).2
      - (numberFormat.precision - 1))).ne'
    have hfactor : (if x.isNegative then -1 else 1 : ℚ) ≠ 0 := by
      split <;> norm_num
    rw [DecimalText.value_eq_zero_iff, hmagnitude, hq, mul_eq_zero_iff_right hunit,
      mul_eq_zero_iff_left hfactor, Nat.cast_eq_zero, hround.zero]
  case near =>
    have hnear := DecimalText.abs_value_sub (numberFormat.decimalText x.isNegative x.magnitude)
      (x.magnitude / gridScale)
    rw [hsign, ← hq, hmagnitude] at hnear
    rw [hnear, hleading]
    exact hround.near
  case positional =>
    rintro ⟨hlow, hhigh⟩
    rw [hleading] at hlow hhigh
    have hnone : (numberFormat.decimalText x.isNegative x.magnitude).exponent = none := by
      rw [DecimalFormat.decimalText_of_positional _ ⟨hlow, Int.lt_add_one_of_le hhigh⟩]
      rfl
    exact ⟨hnone, numberFormat.fraction_decimalText_ne_nil _ _ hnone⟩
  case scientific =>
    intro hother
    rw [hleading] at hother
    rw [DecimalFormat.decimalText_of_not_positional _
      fun h => hother ⟨h.1, Int.le_of_lt_add_one h.2⟩]
    exact ⟨_, rfl, ExponentPart.two_le_length_ofInteger _⟩
  case significant => exact numberFormat.length_significant_decimalText _ _ hp
  case trimmed => exact numberFormat.trimmed_decimalText _ _

end Binary64

/-! ## the texts of integers -/

theorem mem_repr {i : ℤ} {c : Char} (h : c ∈ i.repr.toList) : c.isDigit = true ∨ c = '-' := by
  rw [← IntegerText.text_ofInteger, IntegerText.text, String.toList_ofList] at h
  rcases List.mem_append.mp h with hfront | hafter
  · rcases List.mem_append.mp hfront with hbefore | hnumeral
    · exact absurd hbefore List.not_mem_nil
    · rcases List.mem_append.mp hnumeral with hmark | hdigit
      · cases i with
        | ofNat n => exact absurd hmark List.not_mem_nil
        | negSucc n => exact .inr (List.mem_singleton.mp hmark)
      · exact .inl ((IntegerText.ofInteger i).digits_decimal c hdigit)
  · exact absurd hafter List.not_mem_nil

theorem ne_repr_of_mem {s : String} {c : Char} (h : c ∈ s.toList)
    (hforeign : ¬(c.isDigit = true ∨ c = '-')) (i : ℤ) : s ≠ i.repr :=
  fun hs => hforeign (mem_repr (hs ▸ h))

theorem DecimalText.text_ne_repr (t : DecimalText) (h : t.exponent = none → t.fraction ≠ []) (i : ℤ) :
    t.text ≠ i.repr := by
  cases hexponent : t.exponent with
  | none =>
    refine ne_repr_of_mem (c := '.') ?_ (by decide) i
    rw [text, String.toList_ofList, unsigned, if_neg (h hexponent)]
    simp
  | some e =>
    refine ne_repr_of_mem (c := 'e') ?_ (by decide) i
    rw [text, String.toList_ofList, unsigned, hexponent]
    simp [ExponentPart.chars]

theorem Binary64.render_ne_repr (x : Binary64) (i : ℤ) : x.render ≠ i.repr := by
  rcases x.exact_cases with ⟨-, -, hinfinite⟩ | hnan | hfinite
  · refine ne_repr_of_mem (c := 'n') ?_ (by decide) i
    rw [render, hinfinite, String.toList_ofList]
    refine List.mem_append_right _ ?_
    cases x.isNegative <;> exact List.mem_cons_of_mem _ List.mem_cons_self
  · refine ne_repr_of_mem (c := 'n') ?_ (by decide) i
    rw [render, hnan, String.toList_ofList]
    exact List.mem_append_right _ List.mem_cons_self
  · rw [render_of_finite hfinite]
    exact DecimalText.text_ne_repr _ (numberFormat.fraction_decimalText_ne_nil _ _) i

/-- **A finite float is written as a decimal number that is as near to it as fourteen digits allow, and
no float is written as an integer.** -/
theorem render_rounds (x : Binary64) :
    (∀ q : ℚ, x.amount? = some (.ofRat q) → ∃ t : DecimalText, x.Rendered q t) ∧
    ∀ n : Int64, (Value.number x).toText? ≠ (Value.integer n).toText? :=
  ⟨fun _ h => ⟨_, Binary64.rendered h⟩, fun n h => x.render_ne_repr n.toInt (Option.some.inj h)⟩

/-- the greatest float below `10^-4` -/
def carried : Binary64 := ⟨0x3f1a36e2eb1c432c⟩

/-- Rounding carries into `10^-4`, which is written without an exponent. -/
theorem render_rounds_carried :
    ∃ q : ℚ, carried.amount? = some (.ofRat q) ∧ q < 1 / 10 ^ (4 : ℤ) ∧ carried.render = "0.0001" ∧
      ∃ t : DecimalText, carried.Rendered q t := by
  have hamount : carried.amount? = some (.ofRat
      ((1 + (0xa36e2eb1c432c : ℕ) / (2 : ℚ) ^ (52 : ℤ)) * (2 : ℚ) ^ ((1009 : ℕ) - 1023 : ℤ))) := by
    have hsign : carried.isNegative = false := by decide
    have hexponent : carried.exponentField = 1009 := by decide
    have hfraction : carried.fraction = 0xa36e2eb1c432c := by decide
    rw [Binary64.amount?, hsign, hexponent, hfraction, if_neg (by decide), if_neg (by decide),
      if_neg (by decide), one_mul]
  exact ⟨_, hamount, by norm_num, by decide +kernel, (render_rounds carried).1 _ hamount⟩

/-- minus zero keeps its sign, and a power of ten its exponent -/
example : Binary64.render ⟨0x8000000000000000⟩ = "-0.0" ∧
    Binary64.render ⟨0x430c6bf526340000⟩ = "1e+15" := by
  decide +kernel

end ScriptTables
