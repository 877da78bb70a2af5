import Mathlib.Algebra.Order.Field.Power
import Mathlib.Algebra.Order.Field.Rat
import Mathlib.Order.WithBot
import Mathlib.Tactic.FieldSimp
import Mathlib.Tactic.Ring
import ScriptTables.Proofs.Numeric.Exact

/-!
# What numbers amount to

IEEE 754 reads a sign, an exponent and a fraction as a rational number or as one of the infinities.
This reading knows nothing of the steps in which exact values are counted, but comes to the same.

* `Amount`                 the rationals between the two infinities;
* `Binary64.amount?`       what the fields of a number amount to;
* `Exact.amount?`          what a count of steps amounts to;
* `Binary64.amount?_eq`    the two readings agree;
* `Exact.less_iff`, `Exact.equal_iff_amount`   exact values are compared as what they amount to.
-/

namespace ScriptTables

/-- a rational, or one of the infinities -/
abbrev Amount := WithBot (WithTop ℚ)

def Amount.ofRat (q : ℚ) : Amount := ((q : WithTop ℚ) : WithBot (WithTop ℚ))

theorem Amount.ofRat_lt {p q : ℚ} : Amount.ofRat p < Amount.ofRat q ↔ p < q := by
  rw [ofRat, ofRat, WithBot.coe_lt_coe, WithTop.coe_lt_coe]

theorem Amount.bot_lt_ofRat (q : ℚ) : ⊥ < Amount.ofRat q := WithBot.bot_lt_coe _

theorem Amount.ofRat_lt_top (q : ℚ) : Amount.ofRat q < ⊤ :=
  WithBot.coe_lt_coe.mpr (WithTop.coe_lt_top q)

theorem Amount.ofRat_inj {p q : ℚ} : Amount.ofRat p = Amount.ofRat q ↔ p = q := by
  rw [ofRat, ofRat, WithBot.coe_inj, WithTop.coe_inj]

/-- What a number amounts to.  The exponent is biased by 1023 and the fraction follows a leading one;
with the least exponent there is no leading one, and the greatest is kept for the infinities and for
what is no number. -/
def Binary64.amount? (x : Binary64) : Option Amount :=
  let sign : ℚ := if x.isNegative then -1 else 1
  let fraction : ℚ := x.fraction / (2 : ℚ) ^ (52 : ℤ)
  if x.exponentField = 2 ^ 11 - 1 then
    if x.fraction = 0 then some (if x.isNegative then ⊥ else ⊤) else none
  else if x.exponentField = 0 then some (.ofRat (sign * fraction * (2 : ℚ) ^ (-1022 : ℤ)))
  else some (.ofRat (sign * (1 + fraction) * (2 : ℚ) ^ ((x.exponentField : ℤ) - 1023)))

namespace Exact

def ratOfSteps (steps : ℤ) : ℚ := steps / gridScale

def amount? : Exact → Option Amount
  | .nan => none
  | .negInfinity => some ⊥
  | .finite steps => some (.ofRat (ratOfSteps steps))
  | .posInfinity => some ⊤

theorem amount?_eq_none {a : Exact} : a.amount? = none ↔ a = .nan := by
  cases a <;> simp [amount?]

theorem gridScale_rat : (0 : ℚ) < gridScale := Nat.cast_pos.mpr gridScale_pos

theorem amount?_ofInteger (n : Int64) :
    (ofInteger n).amount? = some (.ofRat n.toInt) := by
  rw [ofInteger, amount?, ratOfSteps, Int.cast_mul, Int.cast_natCast,
    mul_div_cancel_right₀ _ (ne_of_gt gridScale_rat)]

theorem ratOfSteps_lt {m n : ℤ} : ratOfSteps m < ratOfSteps n ↔ m < n := by
  rw [ratOfSteps, ratOfSteps, div_lt_div_iff_of_pos_right gridScale_rat, Int.cast_lt]

theorem ratOfSteps_inj {m n : ℤ} : ratOfSteps m = ratOfSteps n ↔ m = n := by
  rw [ratOfSteps, ratOfSteps, div_left_inj' (ne_of_gt gridScale_rat), Int.cast_inj]

theorem less_iff {a b : Exact} :
    a.less b = true ↔ ∃ p q, a.amount? = some p ∧ b.amount? = some q ∧ p < q := by
  cases a <;> cases b <;>
    simp [less, amount?, Amount.ofRat_lt, Amount.bot_lt_ofRat, Amount.ofRat_lt_top,
      ratOfSteps_lt]

theorem amount?_injective {a b : Exact} {p : Amount} (ha : a.amount? = some p)
    (hb : b.amount? = some p) : a = b := by
  have hbot := fun q => (Amount.bot_lt_ofRat q).ne
  have htop := fun q => (Amount.ofRat_lt_top q).ne
  cases a <;> cases b <;>
    simp_all [amount?, Amount.ofRat_inj, ratOfSteps_inj, eq_comm]

theorem equal_iff_amount {a b : Exact} :
    a.equal b = true ↔ ∃ p, a.amount? = some p ∧ b.amount? = some p := by
  rw [equal_iff]
  constructor
  · rintro ⟨rfl, hnan⟩
    obtain ⟨p, hp⟩ := Option.ne_none_iff_exists'.mp (mt amount?_eq_none.mp hnan)
    exact ⟨p, hp, hp⟩
  · rintro ⟨p, ha, hb⟩
    refine ⟨amount?_injective ha hb, fun hnan => ?_⟩
    rw [hnan] at ha
    cases ha

end Exact

namespace Binary64

variable (x : Binary64)

/-! ## the fields -/

theorem gridScale_eq_zpow : (gridScale : ℚ) = (2 : ℚ) ^ (1074 : ℤ) := by
  rw [gridScale_eq, gridExponent, Nat.cast_pow, Nat.cast_two]
  exact (zpow_natCast (2 : ℚ) 1074).symm

theorem fraction_div_gridScale :
    (x.fraction : ℚ) / gridScale = x.fraction / (2 : ℚ) ^ (52 : ℤ) * (2 : ℚ) ^ (-1022 : ℤ) := by
  have hexponent : (1074 : ℤ) = 52 + 1022 := by decide
  rw [gridScale_eq_zpow, hexponent, zpow_add₀ two_ne_zero, zpow_neg, div_mul_eq_div_div,
    div_eq_mul_inv (x.fraction / (2 : ℚ) ^ (52 : ℤ))]

theorem shifted_div_gridScale (h : x.exponentField ≠ 0) :
    (((2 ^ 52 + x.fraction) * 2 ^ (x.exponentField - 1) : ℕ) : ℚ) / gridScale
      = (1 + x.fraction / (2 : ℚ) ^ (52 : ℤ)) * (2 : ℚ) ^ ((x.exponentField : ℤ) - 1023) := by
  obtain ⟨e, he⟩ := Nat.exists_eq_succ_of_ne_zero h
  have hexponent : (x.exponentField : ℤ) - 1023 = (e : ℤ) + 52 + (-1074) := by omega
  have hone : ((2 ^ 52 : ℕ) : ℚ) = (2 : ℚ) ^ (52 : ℤ) := by
    rw [Nat.cast_pow, Nat.cast_two]
    exact (zpow_natCast (2 : ℚ) 52).symm
  rw [hexponent, zpow_add₀ two_ne_zero, zpow_add₀ two_ne_zero, zpow_neg, zpow_natCast,
    gridScale_eq_zpow, he, Nat.succ_sub_one, Nat.cast_mul, Nat.cast_add, hone, Nat.cast_pow,
    Nat.cast_two]
  field_simp

theorem ratOfSteps_signed (steps : ℕ) :
    Exact.ratOfSteps (x.signed steps)
      = (if x.isNegative then -1 else 1) * ((steps : ℚ) / gridScale) := by
  rw [Exact.ratOfSteps]
  unfold signed
  cases x.isNegative
  · rw [if_neg Bool.false_ne_true, if_neg Bool.false_ne_true, one_mul, Int.cast_natCast]
  · rw [if_pos rfl, if_pos rfl, neg_one_mul, Int.cast_neg, Int.cast_natCast, neg_div]

/-- **The fields of a number amount to its exact value.** -/
theorem amount?_eq : x.amount? = x.exact.amount? := by
  rw [amount?, exact_eq]
  by_cases hspecial : x.exponentField = 2 ^ 11 - 1
  · rw [if_pos hspecial, if_pos hspecial]
    by_cases hfraction : x.fraction = 0
    · rw [if_pos hfraction, if_pos hfraction]
      cases x.isNegative <;> rfl
    · rw [if_neg hfraction, if_neg hfraction]
      rfl
  · rw [if_neg hspecial, if_neg hspecial, Exact.amount?, ratOfSteps_signed, magnitude_eq]
    by_cases hleast : x.exponentField = 0
    · rw [if_pos hleast, if_pos hleast, fraction_div_gridScale, mul_assoc]
    · rw [if_neg hleast, if_neg hleast, shifted_div_gridScale x hleast, mul_assoc]

end Binary64

end ScriptTables
