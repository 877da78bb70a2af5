import Mathlib.Algebra.Order.Field.Basic
import Mathlib.Algebra.Order.Field.Power
import Mathlib.Algebra.Order.Field.Rat
import Mathlib.Data.Int.Log
import Mathlib.Data.Rat.Floor
import Mathlib.Tactic.FieldSimp
import Mathlib.Tactic.Linarith
import Mathlib.Tactic.Ring
import ScriptTables.Numeric.Rendering
import ScriptTables.Proofs.Numeric.Amount
import ScriptTables.Proofs.Numeric.Nearest

/-!
# The leading digits of a number

A magnitude is divided by a power of ten that leaves as many digits before the point as are kept, and
the quotient is rounded.  Rounding up may carry into a digit more; then the power is the next one, and
half a unit of the old one is less than half a unit of the new one.

* `abs_roundAt_sub_le`        rounding comes within half a unit;
* `decimalExponent_bounds`    the exponent is that of the first digit;
* `Leading`                   digits and an exponent that a magnitude is rounded to;
* `leading_leadingDigits`     they are what is computed.
-/

namespace ScriptTables

/-! ## powers of ten -/

theorem cast_ten_pow (k : ℕ) : ((10 ^ k : ℕ) : ℚ) = (10 : ℚ) ^ (k : ℤ) := by
  rw [Nat.cast_pow, Nat.cast_ofNat]
  exact (zpow_natCast (10 : ℚ) k).symm

theorem ten_zpow_pos (e : ℤ) : (0 : ℚ) < 10 ^ e := zpow_pos (by norm_num) e

theorem ten_zpow_add (e f : ℤ) : (10 : ℚ) ^ (e + f) = 10 ^ e * 10 ^ f := zpow_add₀ (by norm_num) e f

theorem ten_pow_units {precision : ℕ} (hp : 0 < precision) (exponent : ℤ) :
    ((10 ^ (precision - 1) : ℕ) : ℚ) * 10 ^ (exponent - (precision - 1)) = 10 ^ exponent ∧
      ((10 ^ precision : ℕ) : ℚ) * 10 ^ (exponent - (precision - 1)) = 10 ^ (exponent + 1) := by
  rw [cast_ten_pow, cast_ten_pow, ← ten_zpow_add, ← ten_zpow_add]
  constructor
  · congr 1
    omega
  · congr 1
    omega

/-- the exponent of the first digit, for a whole number -/
theorem length_toDigits_bounds {n : ℕ} (hn : 0 < n) :
    10 ^ ((Nat.toDigits 10 n).length - 1) ≤ n ∧ n < 10 ^ (Nat.toDigits 10 n).length := by
  refine ⟨?_, (Nat.length_toDigits_le_iff (by decide) Nat.length_toDigits_pos).mp (Nat.le_refl _)⟩
  rcases Nat.eq_zero_or_pos ((Nat.toDigits 10 n).length - 1) with hone | hmore
  · rw [hone, Nat.pow_zero]
    exact hn
  · by_contra hlt
    have hshort := (Nat.length_toDigits_le_iff (by decide) hmore).mpr (not_le.mp hlt)
    omega

theorem length_toDigits_eq {n k : ℕ} (hlow : 10 ^ (k - 1) ≤ n) (hhigh : n < 10 ^ k) (hk : 0 < k) :
    (Nat.toDigits 10 n).length = k := by
  obtain ⟨hfirst, hlast⟩ := length_toDigits_bounds (Nat.lt_of_lt_of_le (Nat.pow_pos (by decide)) hlow)
  have hup := (Nat.pow_lt_pow_iff_right (by decide)).mp (Nat.lt_of_le_of_lt hlow hlast)
  have hdown := (Nat.pow_lt_pow_iff_right (by decide)).mp (Nat.lt_of_le_of_lt hfirst hhigh)
  omega

/-! ## rounding -/

theorem scaled_pos (k : ℕ) : 0 < gridScale * 10 ^ k :=
  Nat.mul_pos gridScale_pos (Nat.pow_pos (by decide))

theorem roundAt_zero (e : ℤ) : roundAt 0 e = 0 := by
  unfold roundAt
  split
  · have hzero := divHalfEven_exact 0 (scaled_pos e.toNat)
    rwa [Nat.zero_mul] at hzero
  · have hzero := divHalfEven_exact 0 gridScale_pos
    rwa [Nat.zero_mul] at hzero ⊢

theorem abs_divHalfEven_sub_le (num : ℕ) {den : ℕ} (h : 0 < den) :
    |(divHalfEven num den : ℚ) - num / den| ≤ 1 / 2 := by
  have hden : (0 : ℚ) < den := Nat.cast_pos.mpr h
  have hup : (2 * (divHalfEven num den * den) : ℚ) ≤ 2 * num + den := by
    exact_mod_cast divHalfEven_mul_le num h
  have hdown : (2 * num : ℚ) ≤ 2 * (divHalfEven num den * den) + den := by
    exact_mod_cast le_divHalfEven_mul num h
  have hdiff : (divHalfEven num den : ℚ) - num / den = (divHalfEven num den * den - num) / den := by
    rw [sub_div, mul_div_cancel_right₀ _ hden.ne']
  rw [hdiff, abs_div, abs_of_pos hden, div_le_iff₀ hden, abs_le]
  constructor <;> linarith

/-- a magnitude in units of a power of ten is rounded to within half a unit -/
theorem abs_roundAt_sub_le (steps : ℕ) (e : ℤ) :
    |(roundAt steps e : ℚ) - steps / gridScale / 10 ^ e| ≤ 1 / 2 := by
  unfold roundAt
  split
  · next he =>
    have hround := abs_divHalfEven_sub_le steps (scaled_pos e.toNat)
    rwa [Nat.cast_mul, cast_ten_pow, Int.toNat_of_nonneg he, ← div_div] at hround
  · next he =>
    have hround := abs_divHalfEven_sub_le (steps * 10 ^ (-e).toNat) gridScale_pos
    rwa [Nat.cast_mul, cast_ten_pow, Int.toNat_of_nonneg (by omega), zpow_neg, ← div_eq_mul_inv,
      div_right_comm] at hround

theorem abs_roundAt_mul_sub_le (steps : ℕ) (e : ℤ) :
    |(roundAt steps e : ℚ) * 10 ^ e - steps / gridScale| ≤ 1 / 2 * 10 ^ e := by
  have hunit := ten_zpow_pos e
  have hdiff : (roundAt steps e : ℚ) * 10 ^ e - steps / gridScale
      = (roundAt steps e - steps / gridScale / 10 ^ e) * 10 ^ e := by
    rw [sub_mul, div_mul_cancel₀ _ hunit.ne']
  rw [hdiff, abs_mul, abs_of_pos hunit]
  exact mul_le_mul_of_nonneg_right (abs_roundAt_sub_le steps e) hunit.le

theorem roundAt_le {steps n : ℕ} {e : ℤ} (h : (steps / gridScale / 10 ^ e : ℚ) < n + 1 / 2) :
    roundAt steps e ≤ n := by
  have hround := (abs_le.mp (abs_roundAt_sub_le steps e)).2
  have hlt : (roundAt steps e : ℚ) < n + 1 := by linarith
  exact Nat.lt_add_one_iff.mp (by exact_mod_cast hlt)

theorem le_roundAt {steps n : ℕ} {e : ℤ} (h : (n : ℚ) - 1 / 2 < steps / gridScale / 10 ^ e) :
    n ≤ roundAt steps e := by
  have hround := (abs_le.mp (abs_roundAt_sub_le steps e)).1
  have hlt : (n : ℚ) < roundAt steps e + 1 := by linarith
  exact Nat.lt_add_one_iff.mp (by exact_mod_cast hlt)

/-! ## the first digit -/

theorem decimalExponent_eq (steps : ℕ) : decimalExponent steps
    = (Nat.toDigits 10 (steps * 10 ^ decimalLift / gridScale)).length - (decimalLift + 1 : ℤ) := by
  rw [decimalExponent, tenPow_eq]

theorem gridScale_le_lift : gridScale ≤ 10 ^ decimalLift := by decide +kernel

theorem lifted_bounds {steps : ℕ} (h : 0 < steps) :
    10 ^ ((Nat.toDigits 10 (steps * 10 ^ decimalLift / gridScale)).length - 1) * gridScale
        ≤ steps * 10 ^ decimalLift ∧
      steps * 10 ^ decimalLift
        < 10 ^ (Nat.toDigits 10 (steps * 10 ^ decimalLift / gridScale)).length * gridScale := by
  have hpos : 0 < steps * 10 ^ decimalLift / gridScale :=
    Nat.div_pos (Nat.le_trans gridScale_le_lift (Nat.le_mul_of_pos_left _ h)) gridScale_pos
  obtain ⟨hfirst, hlast⟩ := length_toDigits_bounds hpos
  exact ⟨(Nat.le_div_iff_mul_le gridScale_pos).mp hfirst, (Nat.div_lt_iff_lt_mul gridScale_pos).mp hlast⟩

/-- the first digit of a magnitude stands at its exponent -/
theorem decimalExponent_bounds {steps : ℕ} (h : 0 < steps) :
    (10 : ℚ) ^ decimalExponent steps ≤ steps / gridScale ∧
      (steps / gridScale : ℚ) < 10 ^ (decimalExponent steps + 1) := by
  obtain ⟨hlow, hhigh⟩ := lifted_bounds h
  have hlength := Nat.length_toDigits_pos (b := 10) (n := steps * 10 ^ decimalLift / gridScale)
  rw [decimalExponent_eq]
  generalize (Nat.toDigits 10 (steps * 10 ^ decimalLift / gridScale)).length = count
    at hlow hhigh hlength ⊢
  have hlift := ten_zpow_pos decimalLift
  rw [le_div_iff₀ Exact.gridScale_rat, div_lt_iff₀ Exact.gridScale_rat]
  constructor
  · have hcount : ((count - 1 : ℕ) : ℤ) = (count : ℤ) - (decimalLift + 1) + decimalLift := by omega
    rw [← Nat.cast_le (α := ℚ), Nat.cast_mul, Nat.cast_mul, cast_ten_pow, cast_ten_pow, hcount,
      ten_zpow_add, mul_right_comm] at hlow
    exact le_of_mul_le_mul_right hlow hlift
  · have hcount : (count : ℤ) = (count : ℤ) - (decimalLift + 1) + 1 + decimalLift := by omega
    rw [← Nat.cast_lt (α := ℚ), Nat.cast_mul, Nat.cast_mul, cast_ten_pow, cast_ten_pow, hcount,
      ten_zpow_add, mul_right_comm] at hhigh
    exact lt_of_mul_lt_mul_right hhigh hlift.le

/-! ## rounded digits -/

/-- The whole number `digits` and the exponent of its first digit are what a magnitude is rounded to,
when `precision` digits are kept. -/
structure Leading (precision : ℕ) (magnitude : ℚ) (digits : ℕ) (exponent : ℤ) : Prop where
  near : |(digits : ℚ) * 10 ^ (exponent - (precision - 1)) - magnitude|
    ≤ 1 / 2 * 10 ^ (exponent - (precision - 1))
  log : Int.log 10 ((digits : ℚ) * 10 ^ (exponent - (precision - 1))) = exponent
  zero : digits = 0 ↔ magnitude = 0
  length : digits ≠ 0 → (Nat.toDigits 10 digits).length = precision

theorem Leading.of_bounds {precision digits : ℕ} {magnitude : ℚ} {exponent : ℤ} (hp : 0 < precision)
    (hmagnitude : 0 < magnitude) (hlow : 10 ^ (precision - 1) ≤ digits)
    (hhigh : digits < 10 ^ precision)
    (hnear : |(digits : ℚ) * 10 ^ (exponent - (precision - 1)) - magnitude|
      ≤ 1 / 2 * 10 ^ (exponent - (precision - 1))) :
    Leading precision magnitude digits exponent := by
  obtain ⟨hfirst, hnext⟩ := ten_pow_units hp exponent
  have hdigits : 0 < digits := Nat.lt_of_lt_of_le (Nat.pow_pos (by decide)) hlow
  have hunit := ten_zpow_pos (exponent - (precision - 1))
  have hvalue : (0 : ℚ) < digits * 10 ^ (exponent - (precision - 1)) :=
    mul_pos (Nat.cast_pos.mpr hdigits) hunit
  refine ⟨hnear, le_antisymm ?_ ?_, ?_, fun _ => length_toDigits_eq hlow hhigh hp⟩
  · refine Int.lt_add_one_iff.mp ((Int.lt_zpow_iff_log_lt (b := 10) (by decide) hvalue).mp ?_)
    rw [Nat.cast_ofNat, ← hnext]
    exact mul_lt_mul_of_pos_right (Nat.cast_lt.mpr hhigh) hunit
  · refine (Int.zpow_le_iff_le_log (b := 10) (by decide) hvalue).mp ?_
    rw [Nat.cast_ofNat, ← hfirst]
    exact mul_le_mul_of_nonneg_right (Nat.cast_le.mpr hlow) hunit.le
  · exact iff_of_false hdigits.ne' hmagnitude.ne'

theorem units_bounds {precision steps : ℕ} (hp : 0 < precision) (h : 0 < steps) :
    ((10 ^ (precision - 1) : ℕ) : ℚ)
        ≤ steps / gridScale / 10 ^ (decimalExponent steps - (precision - 1)) ∧
      (steps / gridScale / 10 ^ (decimalExponent steps - (precision - 1)) : ℚ)
        < (10 ^ precision : ℕ) := by
  obtain ⟨hfirst, hnext⟩ := ten_pow_units hp (decimalExponent steps)
  have hunit := ten_zpow_pos (decimalExponent steps - (precision - 1))
  rw [le_div_iff₀ hunit, div_lt_iff₀ hunit, hfirst, hnext]
  exact decimalExponent_bounds h

/-- rounding leaves the digits that are kept, or carries into one more -/
theorem roundAt_bounds {precision steps : ℕ} (hp : 0 < precision) (h : 0 < steps) :
    10 ^ (precision - 1) ≤ roundAt steps (decimalExponent steps - (precision - 1)) ∧
      roundAt steps (decimalExponent steps - (precision - 1)) ≤ 10 ^ precision := by
  obtain ⟨hlow, hhigh⟩ := units_bounds hp h
  exact ⟨le_roundAt (by linarith), roundAt_le (by linarith)⟩

/-- where rounding carries into one more digit, rounding at the next power of ten yields a power -/
theorem roundAt_succ_of_carry {precision steps : ℕ} {e : ℤ} (hp : 0 < precision)
    (h : roundAt steps e = 10 ^ precision) : roundAt steps (e + 1) = 10 ^ (precision - 1) := by
  obtain ⟨kept, rfl⟩ := Nat.exists_eq_succ_of_ne_zero hp.ne'
  obtain ⟨hbelow, habove⟩ := abs_le.mp (abs_roundAt_sub_le steps e)
  rw [h, Nat.pow_succ, Nat.cast_mul, Nat.cast_ofNat] at hbelow habove
  have hunits : (steps / gridScale / 10 ^ (e + 1) : ℚ) = steps / gridScale / 10 ^ e / 10 := by
    rw [ten_zpow_add, zpow_one, ← div_div]
  -- half a unit is a twentieth of the next one
  rw [Nat.succ_sub_one]
  exact Nat.le_antisymm (roundAt_le (by linarith)) (le_roundAt (by linarith))

/-! ## the digits -/

section
variable {precision steps : ℕ}

theorem leadingDigits_zero : leadingDigits precision 0 = (0, 0) := if_pos rfl

theorem leadingDigits_of_carry (h : 0 < steps)
    (hcarry : roundAt steps (decimalExponent steps - (precision - 1)) = 10 ^ precision) :
    leadingDigits precision steps = (10 ^ (precision - 1), decimalExponent steps + 1) := by
  rw [leadingDigits, if_neg h.ne']
  exact if_pos hcarry

theorem leadingDigits_of_not_carry (h : 0 < steps)
    (hcarry : ¬roundAt steps (decimalExponent steps - (precision - 1)) = 10 ^ precision) :
    leadingDigits precision steps
      = (roundAt steps (decimalExponent steps - (precision - 1)), decimalExponent steps) := by
  rw [leadingDigits, if_neg h.ne']
  exact if_neg hcarry

/-- **The digits are those of rounding at the exponent that comes with them**, also where rounding
carried and the exponent is not that of the magnitude. -/
theorem roundAt_leadingDigits (hp : 0 < precision) (steps : ℕ) :
    roundAt steps ((leadingDigits precision steps).2 - (precision - 1))
      = (leadingDigits precision steps).1 := by
  rcases Nat.eq_zero_or_pos steps with rfl | hsteps
  · rw [leadingDigits_zero, roundAt_zero]
  · by_cases hcarry : roundAt steps (decimalExponent steps - (precision - 1)) = 10 ^ precision
    · have hnext : decimalExponent steps + 1 - ((precision : ℤ) - 1)
          = decimalExponent steps - (precision - 1) + 1 := by omega
      rw [leadingDigits_of_carry hsteps hcarry, hnext, roundAt_succ_of_carry hp hcarry]
    · rw [leadingDigits_of_not_carry hsteps hcarry]

theorem leadingDigits_bounds (hp : 0 < precision) (h : 0 < steps) :
    10 ^ (precision - 1) ≤ (leadingDigits precision steps).1 ∧
      (leadingDigits precision steps).1 < 10 ^ precision := by
  obtain ⟨hlow, hhigh⟩ := roundAt_bounds hp h
  by_cases hcarry : roundAt steps (decimalExponent steps - (precision - 1)) = 10 ^ precision
  · rw [leadingDigits_of_carry h hcarry]
    exact ⟨Nat.le_refl _, Nat.pow_lt_pow_right (by decide) (Nat.sub_lt hp Nat.one_pos)⟩
  · rw [leadingDigits_of_not_carry h hcarry]
    exact ⟨hlow, Nat.lt_of_le_of_ne hhigh hcarry⟩

/-- **The digits and the exponent are what the magnitude is rounded to.** -/
theorem leading_leadingDigits (hp : 0 < precision) (steps : ℕ) :
    Leading precision (steps / gridScale) (leadingDigits precision steps).1
      (leadingDigits precision steps).2 := by
  have hnear := abs_roundAt_mul_sub_le steps ((leadingDigits precision steps).2 - (precision - 1))
  rw [roundAt_leadingDigits hp] at hnear
  rcases Nat.eq_zero_or_pos steps with rfl | hsteps
  · rw [leadingDigits_zero] at hnear ⊢
    refine ⟨hnear, ?_, ?_, fun hdigits => absurd rfl hdigits⟩
    · rw [Nat.cast_zero, zero_mul, Int.log_zero_right]
    · exact iff_of_true rfl (by rw [Nat.cast_zero, zero_div])
  · obtain ⟨hlow, hhigh⟩ := leadingDigits_bounds hp hsteps
    exact .of_bounds hp (div_pos (Nat.cast_pos.mpr hsteps) Exact.gridScale_rat) hlow hhigh hnear

end

end ScriptTables
