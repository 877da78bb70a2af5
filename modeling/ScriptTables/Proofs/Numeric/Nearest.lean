import ScriptTables.Numeric.Numeral
import ScriptTables.Proofs.Numeric.Exact

/-!
# What rounding comes to

A rounded number is written down as its fields added up, so that a carry moves on to the next exponent
by itself.  Here its exact value is read back: the leading digits, rounded, times the power of two that
was divided off before.

* `magnitude_ofFields`   leading digits and an exponent, added up, are the digits shifted;
* `exact_ofRatio`        the value that a quotient is rounded to;
* `exact_ofDecimal`      a whole number of 53 digits or more;
* `toInteger?_ofDecimal` rounded numbers behind the greatest integer, and before the least one.
-/

namespace ScriptTables

/-! ## quotients -/

theorem div_le_divHalfEven (num den : Nat) : num / den ≤ divHalfEven num den := by
  simp only [divHalfEven]
  split
  · exact Nat.le_refl _
  · split
    · exact Nat.le_succ _
    · exact Nat.le_add_right _ _

theorem divHalfEven_le (num den : Nat) : divHalfEven num den ≤ num / den + 1 := by
  have hmod := Nat.mod_lt (num / den) Nat.two_pos
  simp only [divHalfEven]
  split
  · exact Nat.le_succ _
  · split
    · exact Nat.le_refl _
    · omega

theorem divHalfEven_mul_right (num den : Nat) {k : Nat} (hk : 0 < k) :
    divHalfEven (num * k) (den * k) = divHalfEven num den := by
  have htwice : 2 * (num % den * k) = 2 * (num % den) * k := (Nat.mul_assoc _ _ _).symm
  simp only [divHalfEven, Nat.mul_div_mul_right _ _ hk, Nat.mul_mod_mul_right, htwice,
    Nat.mul_lt_mul_right hk]

theorem tenPow_eq (k : Nat) : tenPow k = 10 ^ k := rfl

theorem withSign_mul (negative : Bool) (m n : Nat) :
    withSign negative (m * n) = withSign negative m * n := by
  cases negative
  · exact Int.natCast_mul m n
  · exact (congrArg Neg.neg (Int.natCast_mul m n)).trans (Int.neg_mul _ _).symm

namespace Binary64

/-! ## fields -/

theorem infinityField_eq : infinityField = (2 ^ 11 - 1) * 2 ^ 52 := rfl

section
variable {rest : Nat} (negative : Bool)

theorem ofFields_eq (rest : Nat) :
    ofFields negative rest = ⟨UInt64.ofNat ((if negative then 2 ^ 63 else 0) + rest)⟩ := rfl

theorem toNat_bits_ofFields (h : rest < 2 ^ 63) :
    (ofFields negative rest).bits.toNat = (if negative then 2 ^ 63 else 0) + rest := by
  rw [ofFields_eq, UInt64.toNat_ofNat']
  refine Nat.mod_eq_of_lt ?_
  cases negative <;> simp only [Bool.false_eq_true, if_false, if_true] <;> omega

theorem isNegative_ofFields (h : rest < 2 ^ 63) : (ofFields negative rest).isNegative = negative := by
  have hbit : (ofFields negative rest).isNegative
      = decide ((ofFields negative rest).bits.toNat / 2 ^ 63 % 2 = 1) :=
    Nat.testBit_eq_decide_div_mod_eq
  rw [hbit, toNat_bits_ofFields negative h]
  cases negative
  · exact decide_eq_false (by simp only [Bool.false_eq_true, if_false]; omega)
  · exact decide_eq_true (by simp only [if_true]; omega)

theorem exponentField_ofFields (h : rest < 2 ^ 63) :
    (ofFields negative rest).exponentField = rest / 2 ^ 52 := by
  rw [exponentField_eq, toNat_bits_ofFields negative h]
  cases negative <;> simp only [Bool.false_eq_true, if_false, if_true] <;> omega

theorem fraction_ofFields (h : rest < 2 ^ 63) : (ofFields negative rest).fraction = rest % 2 ^ 52 := by
  rw [fraction_eq, toNat_bits_ofFields negative h]
  cases negative <;> simp only [Bool.false_eq_true, if_false, if_true] <;> omega

/-- Leading digits and an exponent, added up, are the digits shifted: also where the digits have no
leading one, and where there is one digit too many. -/
theorem magnitude_ofFields {shift leading : Nat} (hlow : shift = 0 ∨ 2 ^ 52 ≤ leading)
    (hhigh : leading ≤ 2 ^ 53) (h : shift * 2 ^ 52 + leading < 2 ^ 63) :
    (ofFields negative (shift * 2 ^ 52 + leading)).magnitude = leading * 2 ^ shift := by
  rw [magnitude_eq, exponentField_ofFields negative h, fraction_ofFields negative h]
  rcases Nat.lt_or_ge leading (2 ^ 52) with hsmall | hnormal
  · obtain rfl : shift = 0 := hlow.resolve_right (Nat.not_le.mpr hsmall)
    rw [if_pos (by omega), Nat.pow_zero, Nat.mul_one]
    omega
  · rcases Nat.lt_or_ge leading (2 ^ 53) with hfits | hcarries
    · have hfield : (shift * 2 ^ 52 + leading) / 2 ^ 52 = shift + 1 := by omega
      have hrest : 2 ^ 52 + (shift * 2 ^ 52 + leading) % 2 ^ 52 = leading := by omega
      rw [hfield, hrest, if_neg (Nat.succ_ne_zero shift), Nat.add_sub_cancel]
    · obtain rfl : leading = 2 ^ 53 := Nat.le_antisymm hhigh hcarries
      have hfield : (shift * 2 ^ 52 + 2 ^ 53) / 2 ^ 52 = shift + 1 + 1 := by omega
      have hrest : 2 ^ 52 + (shift * 2 ^ 52 + 2 ^ 53) % 2 ^ 52 = 2 ^ 52 := by omega
      rw [hfield, hrest, if_neg (Nat.succ_ne_zero _), Nat.add_sub_cancel, Nat.pow_succ]
      omega

theorem exact_ofFields (h : rest < infinityField) :
    (ofFields negative rest).exact
      = .finite (withSign negative (ofFields negative rest).magnitude) := by
  have hfits : rest < 2 ^ 63 := Nat.lt_trans h (by decide)
  have hfield : rest / 2 ^ 52 ≠ 2 ^ 11 - 1 := by
    rw [infinityField_eq] at h
    omega
  rw [exact_eq, exponentField_ofFields negative hfits, if_neg hfield, signed,
    isNegative_ofFields negative hfits]
  rfl

end

/-! ## rounded quotients -/

section
variable {num den shift : Nat}

/-- the leading digits of a quotient, before they are rounded: 53 of them, where some are dropped -/
theorem leading_bounds (hshift : excessBits (num / den) = shift) :
    (shift = 0 ∨ 2 ^ 52 ≤ num / (den * 2 ^ shift)) ∧ num / (den * 2 ^ shift) < 2 ^ 53 := by
  rw [← Nat.div_div_eq_div_mul]
  generalize num / den = whole at hshift
  rw [excessBits] at hshift
  have hlt : whole < 2 ^ (whole.log2 + 1) := Nat.lt_log2_self
  rcases Nat.lt_or_ge 52 whole.log2 with hlong | hshort
  · have hlog : whole.log2 = 52 + shift := by omega
    have hle : 2 ^ whole.log2 ≤ whole := Nat.log2_self_le (by rintro rfl; simp at hlong)
    have hpos : 0 < 2 ^ shift := Nat.two_pow_pos shift
    rw [hlog, Nat.pow_add] at hle
    rw [hlog, Nat.add_right_comm, Nat.pow_add] at hlt
    exact ⟨Or.inr ((Nat.le_div_iff_mul_le hpos).mpr hle), (Nat.div_lt_iff_lt_mul hpos).mpr hlt⟩
  · obtain rfl : shift = 0 := by omega
    rw [Nat.pow_zero, Nat.div_one]
    exact ⟨Or.inl rfl, Nat.lt_of_lt_of_le hlt (Nat.pow_le_pow_right (by decide) (by omega))⟩

/-- **A quotient is rounded to its 53 leading digits,** or to an infinity behind the greatest number. -/
theorem exact_ofRatio (negative : Bool) {leading : Nat} (hshift : excessBits (num / den) = shift)
    (hleading : divHalfEven num (den * 2 ^ shift) = leading) :
    (ofRatio negative num den).exact =
      if shift * 2 ^ 52 + leading < infinityField then .finite (withSign negative (leading * 2 ^ shift))
      else (infinity negative).exact := by
  obtain ⟨hlow, hhigh⟩ := leading_bounds hshift
  have hbelow := div_le_divHalfEven num (den * 2 ^ shift)
  have habove := divHalfEven_le num (den * 2 ^ shift)
  rw [hleading] at hbelow habove
  have hround : ofRatio negative num den
      = ofFields negative (min (shift * 2 ^ 52 + leading) infinityField) := by
    rw [ofRatio, hshift, Nat.shiftLeft_eq, hleading]
    rfl
  rw [hround]
  split
  · next hfinite =>
    rw [Nat.min_eq_left (Nat.le_of_lt hfinite), exact_ofFields negative hfinite,
      magnitude_ofFields negative (hlow.imp_right fun h => Nat.le_trans h hbelow) (by omega)
        (Nat.lt_trans hfinite (by decide))]
  · next hinfinite =>
    rw [Nat.min_eq_right (Nat.not_lt.mp hinfinite)]
    rfl

end

/-! ## whole numbers -/

/-- the whole number with 53 leading digits that is nearest to a longer one -/
def roundWhole (n : Nat) : Nat := divHalfEven n (2 ^ excessBits n) * 2 ^ excessBits n

section
variable {n : Nat}

theorem log2_eq_of_le (hn : 2 ^ 52 ≤ n) : n.log2 = 52 + excessBits n := by
  have hlog : 52 ≤ n.log2 := (Nat.le_log2 (by omega)).mpr hn
  rw [excessBits]
  omega

theorem excessBits_mul_gridScale (hn : 2 ^ 52 ≤ n) :
    excessBits (n * gridScale) = excessBits n + gridExponent := by
  have hne : n ≠ 0 := by omega
  have hlog : (n * gridScale).log2 = n.log2 + gridExponent := by
    rw [Nat.log2_eq_iff (Nat.mul_ne_zero hne (Nat.ne_of_gt gridScale_pos)), Nat.add_right_comm,
      Nat.pow_add, Nat.pow_add, ← gridScale_eq]
    exact ⟨Nat.mul_le_mul_right _ (Nat.log2_self_le hne),
      Nat.mul_lt_mul_of_pos_right Nat.lt_log2_self gridScale_pos⟩
  have hbits := log2_eq_of_le hn
  rw [excessBits, hlog]
  omega

/-- **A whole number of 53 digits or more is rounded to 53 digits,** or to an infinity. -/
theorem exact_ofDecimal (negative : Bool) (hn : 2 ^ 52 ≤ n) :
    (ofDecimal negative n 0).exact =
      if (excessBits n + gridExponent) * 2 ^ 52 + divHalfEven n (2 ^ excessBits n) < infinityField then
        .finite (withSign negative (roundWhole n * gridScale))
      else (infinity negative).exact := by
  have hdecimal : ofDecimal negative n 0 = ofRatio negative (n * gridScale) 1 := by
    rw [ofDecimal, if_pos (Int.le_refl 0), Int.toNat_zero, tenPow_eq, Nat.pow_zero, Nat.mul_one]
  have hshift : excessBits (n * gridScale / 1) = excessBits n + gridExponent := by
    rw [Nat.div_one, excessBits_mul_gridScale hn]
  have hleading : divHalfEven (n * gridScale) (1 * 2 ^ (excessBits n + gridExponent))
      = divHalfEven n (2 ^ excessBits n) := by
    rw [Nat.one_mul, Nat.pow_add, ← gridScale_eq]
    exact divHalfEven_mul_right _ _ gridScale_pos
  rw [hdecimal, exact_ofRatio negative hshift hleading, Nat.pow_add, ← gridScale_eq,
    ← Nat.mul_assoc]
  rfl

/-! ## behind the integers of 64 bits -/

theorem le_roundWhole {k : Nat} (hk : 52 ≤ k) (hn : 2 ^ k ≤ n) : 2 ^ k ≤ roundWhole n := by
  have hne : n ≠ 0 := fun h => by simp [h] at hn
  have hbits := log2_eq_of_le (Nat.le_trans (Nat.pow_le_pow_right (by decide) hk) hn)
  have hlog : k ≤ n.log2 := (Nat.le_log2 hne).mpr hn
  have hleading : 2 ^ 52 ≤ divHalfEven n (2 ^ excessBits n) := by
    refine Nat.le_trans ?_ (div_le_divHalfEven n _)
    rw [Nat.le_div_iff_mul_le (Nat.two_pow_pos _), ← Nat.pow_add, ← hbits]
    exact Nat.log2_self_le hne
  calc 2 ^ k ≤ 2 ^ n.log2 := Nat.pow_le_pow_right (by decide) hlog
    _ = 2 ^ 52 * 2 ^ excessBits n := by rw [hbits, Nat.pow_add]
    _ ≤ roundWhole n := Nat.mul_le_mul_right _ hleading

theorem excessBits_eq (hn : 2 ^ 63 ≤ n) (hlt : n < 2 ^ 64) : excessBits n = 11 := by
  rw [excessBits, (Nat.log2_eq_iff (by omega)).mpr ⟨hn, hlt⟩]

theorem divHalfEven_eq (hn : 2 ^ 63 ≤ n) (hhalf : n ≤ 2 ^ 63 + 2 ^ 10) :
    divHalfEven n (2 ^ 11) = 2 ^ 52 := by
  simp only [divHalfEven]
  split
  · omega
  · split <;> omega

theorem roundWhole_eq_iff (hn : 2 ^ 63 ≤ n) : roundWhole n = 2 ^ 63 ↔ n ≤ 2 ^ 63 + 2 ^ 10 := by
  rcases Nat.lt_or_ge n (2 ^ 64) with hlt | hge
  · have hnear := le_divHalfEven_mul n (Nat.two_pow_pos 11)
    rw [roundWhole, excessBits_eq hn hlt]
    constructor
    · intro h
      omega
    · intro h
      rw [divHalfEven_eq hn h, ← Nat.pow_add]
  · have hlarge := le_roundWhole (k := 64) (by decide) hge
    constructor
    · intro h
      omega
    · intro h
      omega

theorem toInteger?_of_whole {x : Binary64} {i : Int} (hx : x.exact = .finite (i * gridScale)) :
    x.toInteger? = int64OfInt? i := by
  have hne : (gridScale : Int) ≠ 0 := Int.ofNat_ne_zero.mpr (Nat.ne_of_gt gridScale_pos)
  rw [toInteger?, hx]
  show integerOfSteps? (i * gridScale) = int64OfInt? i
  rw [integerOfSteps?, if_pos (Int.mul_emod_left _ _), Int.mul_ediv_cancel _ hne]

theorem int64OfInt?_withSign (negative : Bool) (hn : 2 ^ 63 ≤ n) :
    int64OfInt? (withSign negative (roundWhole n))
      = if negative ∧ n ≤ 2 ^ 63 + 2 ^ 10 then some Int64.minValue else none := by
  have hlarge := le_roundWhole (k := 63) (by decide) hn
  have hleast := roundWhole_eq_iff hn
  cases negative with
  | false =>
    rw [if_neg fun h => Bool.false_ne_true h.1, int64OfInt?_eq_none]
    show ¬(-2 ^ 63 ≤ (roundWhole n : Int) ∧ (roundWhole n : Int) < 2 ^ 63)
    omega
  | true =>
    by_cases hhalf : n ≤ 2 ^ 63 + 2 ^ 10
    · rw [if_pos ⟨rfl, hhalf⟩, hleast.mpr hhalf]
      decide
    · rw [if_neg fun h => hhalf h.2, int64OfInt?_eq_none]
      show ¬(-2 ^ 63 ≤ -(roundWhole n : Int) ∧ -(roundWhole n : Int) < 2 ^ 63)
      omega

/-- **Behind the greatest integer a rounded number is no integer of 64 bits.**  Before the least one
the first half of a unit is rounded to it, and only what comes then is none. -/
theorem toInteger?_ofDecimal (negative : Bool) (hn : 2 ^ 63 ≤ n) :
    (ofDecimal negative n 0).toInteger? =
      if negative ∧ n ≤ 2 ^ 63 + 2 ^ 10 then some Int64.minValue else none := by
  have hexact := exact_ofDecimal negative (Nat.le_trans (by decide) hn)
  split at hexact
  · rw [withSign_mul] at hexact
    rw [toInteger?_of_whole hexact, int64OfInt?_withSign negative hn]
  · next hinfinite =>
    have hlarge : ¬n ≤ 2 ^ 63 + 2 ^ 10 := by
      intro hhalf
      refine hinfinite ?_
      rw [excessBits_eq hn (by omega), divHalfEven_eq hn hhalf]
      decide
    rw [if_neg fun h => hlarge h.2, toInteger?, hexact, exact_infinity]
    cases negative <;> rfl

end

end Binary64

end ScriptTables
