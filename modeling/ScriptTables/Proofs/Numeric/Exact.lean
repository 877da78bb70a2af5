import Mathlib.Algebra.Group.Int.Defs
import Mathlib.Algebra.Group.Nat.Defs
import ScriptTables.Numeric.Binary64

/-!
# Numbers are told apart by their exact values

The bits of a number are its sign, its exponent and its fraction.  Different bits denote different
values, but for two exceptions: what is no number has many forms, and zero has two.

* `Binary64.eq_of_fields`          the three fields are all there is to a number;
* `Binary64.magnitude_injective`   a magnitude determines exponent and fraction;
* `Binary64.exact_injective`       an exact value determines the number, the exceptions apart.
-/

namespace ScriptTables

theorem gridScale_eq : gridScale = 2 ^ gridExponent := Nat.one_shiftLeft gridExponent

namespace Exact

theorem ofInteger_zero : ofInteger 0 = .finite 0 := congrArg Exact.finite (Int.zero_mul _)

theorem equal_iff {a b : Exact} : a.equal b = true ↔ a = b ∧ a ≠ .nan := by
  cases a with
  | nan => simp [equal]
  | _ => simp [equal]

end Exact

namespace Binary64

variable {x y : Binary64}

/-! ## fields -/

theorem exponentField_eq (x : Binary64) : x.exponentField = x.bits.toNat / 2 ^ 52 % 2 ^ 11 := rfl
theorem fraction_eq (x : Binary64) : x.fraction = x.bits.toNat % 2 ^ 52 := rfl

theorem magnitude_eq (x : Binary64) :
    x.magnitude = if x.exponentField = 0 then x.fraction
      else (2 ^ 52 + x.fraction) * 2 ^ (x.exponentField - 1) := by
  rw [magnitude, Nat.shiftLeft_eq]
  rfl

theorem exact_eq (x : Binary64) :
    x.exact = if x.exponentField = 2 ^ 11 - 1 then
        if x.fraction = 0 then if x.isNegative then .negInfinity else .posInfinity else .nan
      else .finite (x.signed x.magnitude) := rfl

theorem toNat_bits (x : Binary64) :
    x.bits.toNat = (if x.isNegative then 2 ^ 63 else 0) + x.exponentField * 2 ^ 52 + x.fraction := by
  have hlt : x.bits.toNat < 2 ^ 64 := x.bits.toNat_lt
  have hsign : x.isNegative = decide (x.bits.toNat / 2 ^ 63 % 2 = 1) := Nat.testBit_eq_decide_div_mod_eq
  rw [exponentField_eq, fraction_eq, hsign]
  by_cases h : x.bits.toNat / 2 ^ 63 % 2 = 1
  · rw [if_pos (decide_eq_true h)]
    omega
  · rw [if_neg (by simpa using h)]
    omega

theorem eq_of_fields (hsign : x.isNegative = y.isNegative)
    (hexponent : x.exponentField = y.exponentField) (hfraction : x.fraction = y.fraction) :
    x = y := by
  have hbits : x.bits.toNat = y.bits.toNat := by
    rw [toNat_bits, toNat_bits, hsign, hexponent, hfraction]
  exact congrArg Binary64.mk (UInt64.toNat_inj.mp hbits)

theorem fraction_lt (x : Binary64) : x.fraction < 2 ^ 52 := Nat.mod_lt _ (by decide)

/-! ## magnitudes -/

/-- numbers of 53 digits are ordered as their shifts -/
theorem shift_lt {m n a b : Nat} (hm : m < 2 ^ 53) (hn : 2 ^ 52 ≤ n) (h : a < b) :
    m * 2 ^ a < n * 2 ^ b := by
  have hpos : 0 < 2 ^ a := Nat.two_pow_pos a
  calc m * 2 ^ a < 2 ^ 53 * 2 ^ a := Nat.mul_lt_mul_of_pos_right hm hpos
    _ = 2 ^ 52 * 2 ^ (a + 1) := by rw [← Nat.pow_add, ← Nat.pow_add]; congr 1; omega
    _ ≤ n * 2 ^ b := Nat.mul_le_mul hn (Nat.pow_le_pow_right (by decide) h)

theorem shift_injective {m n a b : Nat} (hm : 2 ^ 52 ≤ m ∧ m < 2 ^ 53)
    (hn : 2 ^ 52 ≤ n ∧ n < 2 ^ 53) (h : m * 2 ^ a = n * 2 ^ b) : a = b ∧ m = n := by
  rcases Nat.lt_trichotomy a b with hab | hab | hab
  · exact absurd h (Nat.ne_of_lt (shift_lt hm.2 hn.1 hab))
  · subst hab
    exact ⟨rfl, Nat.eq_of_mul_eq_mul_right (Nat.two_pow_pos a) h⟩
  · exact absurd h (Nat.ne_of_gt (shift_lt hn.2 hm.1 hab))

theorem fraction_ne_shifted {f g k : Nat} (hf : f < 2 ^ 52) : f ≠ (2 ^ 52 + g) * 2 ^ k := by
  have hle : (2 ^ 52 + g) * 1 ≤ (2 ^ 52 + g) * 2 ^ k := Nat.mul_le_mul_left _ (Nat.two_pow_pos k)
  omega

theorem magnitude_injective (h : x.magnitude = y.magnitude) :
    x.exponentField = y.exponentField ∧ x.fraction = y.fraction := by
  have hx := x.fraction_lt
  have hy := y.fraction_lt
  rw [magnitude_eq, magnitude_eq] at h
  by_cases hx0 : x.exponentField = 0
  · by_cases hy0 : y.exponentField = 0
    · rw [if_pos hx0, if_pos hy0] at h
      exact ⟨by rw [hx0, hy0], h⟩
    · rw [if_pos hx0, if_neg hy0] at h
      exact absurd h (fraction_ne_shifted hx)
  · by_cases hy0 : y.exponentField = 0
    · rw [if_neg hx0, if_pos hy0] at h
      exact absurd h.symm (fraction_ne_shifted hy)
    · rw [if_neg hx0, if_neg hy0] at h
      have hshift := shift_injective ⟨by omega, by omega⟩ ⟨by omega, by omega⟩ h
      exact ⟨by omega, by omega⟩

/-! ## exact values -/

theorem signed_injective {m n : Nat} (h : x.signed m = y.signed n) (hm : x.signed m ≠ 0) :
    x.isNegative = y.isNegative ∧ m = n := by
  unfold signed at h hm
  cases hx : x.isNegative <;> cases hy : y.isNegative <;> simp only [hx, hy] at h hm <;>
    simp at h hm ⊢ <;> omega

theorem exact_cases (x : Binary64) :
    (x.exponentField = 2 ^ 11 - 1 ∧ x.fraction = 0 ∧
      x.exact = if x.isNegative then .negInfinity else .posInfinity) ∨
    x.exact = .nan ∨ x.exact = .finite (x.signed x.magnitude) := by
  rw [exact_eq]
  by_cases hx : x.exponentField = 2 ^ 11 - 1
  · by_cases hf : x.fraction = 0
    · exact Or.inl ⟨hx, hf, by rw [if_pos hx, if_pos hf]⟩
    · exact Or.inr (Or.inl (by rw [if_pos hx, if_neg hf]))
  · exact Or.inr (Or.inr (by rw [if_neg hx]))

/-- two numbers with the same exact value are the same, unless it is none or zero -/
theorem exact_injective (h : x.exact = y.exact) (hnan : x.exact ≠ .nan)
    (hzero : x.exact ≠ .finite 0) : x = y := by
  have hinfinity : ∀ (b : Bool) (steps : Int),
      (if b then Exact.negInfinity else .posInfinity) ≠ .finite steps := by
    intro b steps
    cases b <;> exact nofun
  rcases exact_cases x with ⟨hex, hfx, hx⟩ | hx | hx
  · rcases exact_cases y with ⟨hey, hfy, hy⟩ | hy | hy
    · refine eq_of_fields ?_ (hex.trans hey.symm) (hfx.trans hfy.symm)
      rw [hx, hy] at h
      cases hxs : x.isNegative <;> cases hys : y.isNegative <;> rw [hxs, hys] at h <;>
        first | rfl | cases h
    · exact absurd (h.trans hy) hnan
    · rw [hx, hy] at h
      exact absurd h (hinfinity _ _)
  · exact absurd hx hnan
  · rcases exact_cases y with ⟨_, _, hy⟩ | hy | hy
    · rw [hx, hy] at h
      exact absurd h.symm (hinfinity _ _)
    · exact absurd (h.trans hy) hnan
    · rw [hx] at hzero
      rw [hx, hy] at h
      have hsteps := signed_injective (Exact.finite.inj h) fun e => hzero (by rw [e])
      have hfields := magnitude_injective hsteps.2
      exact eq_of_fields hsteps.1 hfields.1 hfields.2

end Binary64

end ScriptTables
