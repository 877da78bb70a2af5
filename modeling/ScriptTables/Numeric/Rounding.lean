import ScriptTables.Numeric.Binary64

/-!
# Rounding to the nearest, ties to even

* `divHalfEven`        the whole number nearest to a quotient, of two the even one;
* `Binary64.ofRatio`   the number nearest to a quotient of steps of `2^-1074`;
* `Binary64.ofDecimal` the number nearest to a decimal `coefficient * 10^exponent`.
-/

namespace ScriptTables

/-! ## quotients -/

/-- the whole number nearest to `num / den`; halfway between two it is the even one -/
def divHalfEven (num den : Nat) : Nat :=
  let below := num / den
  let twice := 2 * (num % den)
  if twice < den then below
  else if den < twice then below + 1
  else below + below % 2

theorem divHalfEven_exact (q : Nat) {den : Nat} (h : 0 < den) : divHalfEven (q * den) den = q := by
  simp [divHalfEven, Nat.mul_div_cancel q h, h]

theorem divHalfEven_mul_le (num : Nat) {den : Nat} (h : 0 < den) :
    2 * (divHalfEven num den * den) ≤ 2 * num + den := by
  have hd := Nat.div_add_mod num den
  have hm := Nat.mod_lt num h
  have hc : num / den * den = den * (num / den) := Nat.mul_comm _ _
  simp only [divHalfEven]
  split
  · omega
  · split
    · rw [Nat.add_mul]; omega
    · rcases Nat.mod_two_eq_zero_or_one (num / den) with e | e <;> rw [e, Nat.add_mul] <;> omega

theorem le_divHalfEven_mul (num : Nat) {den : Nat} (h : 0 < den) :
    2 * num ≤ 2 * (divHalfEven num den * den) + den := by
  have hd := Nat.div_add_mod num den
  have hm := Nat.mod_lt num h
  have hc : num / den * den = den * (num / den) := Nat.mul_comm _ _
  simp only [divHalfEven]
  split
  · omega
  · split
    · rw [Nat.add_mul]; omega
    · rcases Nat.mod_two_eq_zero_or_one (num / den) with e | e <;> rw [e, Nat.add_mul] <;> omega

/-! ## to numbers -/

def tenPow (exponent : Nat) : Nat := Nat.pow 10 exponent

namespace Binary64

/-- how many of the last bits of a whole number do not fit into 53 -/
def excessBits (whole : Nat) : Nat := whole.log2 - 52

/-- The number nearest to `num / den` steps of `2^-1074`.  The leading 53 bits are rounded; the
fields of the result are the count of dropped bits and the rounded value added up, so that a carry
out of the 53 bits moves on to the next exponent, and past the last exponent lies infinity. -/
def ofRatio (negative : Bool) (num den : Nat) : Binary64 :=
  let dropped := excessBits (num / den)
  let leading := divHalfEven num (den <<< dropped)
  ofFields negative (min (dropped * fractionCount + leading) infinityField)

/-- the number nearest to `coefficient * 10^exponent` -/
def ofDecimal (negative : Bool) (coefficient : Nat) (exponent : Int) : Binary64 :=
  if 0 ≤ exponent then ofRatio negative (coefficient * tenPow exponent.toNat * gridScale) 1
  else ofRatio negative (coefficient * gridScale) (tenPow (-exponent).toNat)

end Binary64

end ScriptTables
