/-!
# Binary64 numbers and their exact values

A number is its 64 bits: a sign, eleven bits of exponent, 52 bits of fraction.  Every finite one
is a whole multiple of `2^-1074`, so its exact value is kept as that multiple, an integer, and two
numbers are compared by comparing integers.

* `Binary64`              the bits;
* `Exact`                 what the bits denote: no number, an infinity, or a multiple of `2^-1074`;
* `Binary64.exact`        the denotation;
* `Exact.less`            the order of the denotations, in which "no number" takes no part;
* `Exact.ceiling128`, `Exact.floor128`   the nearest integers of 128 bits from above and from below;
* `Binary64.toInteger?`   the integer equal to a number, when 64 bits hold it;
* `int64OfInt?`           an integer as a 64-bit one, when it fits.
-/

namespace ScriptTables

/-! ## integers of 64 bits -/

/-- an integer as a 64-bit one, when it fits -/
def int64OfInt? : Int → Option Int64
  | .ofNat n => if n < 0x8000000000000000 then some (Int64.ofInt (.ofNat n)) else none
  | .negSucc n => if n < 0x8000000000000000 then some (Int64.ofInt (.negSucc n)) else none

theorem int64OfInt?_eq_ite (i : Int) :
    int64OfInt? i = if -0x8000000000000000 ≤ i ∧ i < 0x8000000000000000
      then some (Int64.ofInt i) else none := by
  cases i with
  | ofNat n =>
    have h : n < 0x8000000000000000 ↔
        -0x8000000000000000 ≤ Int.ofNat n ∧ Int.ofNat n < 0x8000000000000000 := by
      rw [Int.ofNat_eq_natCast]; omega
    simp only [int64OfInt?, h]
  | negSucc n =>
    have h : n < 0x8000000000000000 ↔
        -0x8000000000000000 ≤ Int.negSucc n ∧ Int.negSucc n < 0x8000000000000000 := by
      rw [Int.negSucc_eq]; omega
    simp only [int64OfInt?, h]

theorem int64OfInt?_eq_some {i : Int} {n : Int64} : int64OfInt? i = some n ↔ i = n.toInt := by
  rw [int64OfInt?_eq_ite]
  constructor
  · intro h
    split at h
    · next hr => cases h; exact (Int64.toInt_ofInt_of_le hr.1 hr.2).symm
    · cases h
  · rintro rfl
    rw [if_pos ⟨n.le_toInt, n.toInt_lt⟩, Int64.ofInt_toInt]

theorem int64OfInt?_toInt (n : Int64) : int64OfInt? n.toInt = some n :=
  int64OfInt?_eq_some.mpr rfl

theorem int64OfInt?_eq_none {i : Int} :
    int64OfInt? i = none ↔ ¬(-0x8000000000000000 ≤ i ∧ i < 0x8000000000000000) := by
  rw [int64OfInt?_eq_ite]
  split <;> simp_all

/-! ## exact values -/

def gridExponent : Nat := 1074

/-- the number of steps of `2^-1074` in one -/
def gridScale : Nat := 1 <<< gridExponent

theorem gridScale_pos : 0 < gridScale := by
  rw [gridScale, Nat.one_shiftLeft]
  exact Nat.two_pow_pos gridExponent

/-- what the bits of a number denote; a finite value is counted in steps of `2^-1074` -/
inductive Exact where
  | nan
  | negInfinity
  | finite (steps : Int)
  | posInfinity
  deriving DecidableEq, Repr

namespace Exact

def ofInteger (n : Int64) : Exact := .finite (n.toInt * gridScale)

/-- strictly below; "no number" is below nothing and above nothing -/
def less : Exact → Exact → Bool
  | .nan, _ => false
  | _, .nan => false
  | _, .negInfinity => false
  | .negInfinity, _ => true
  | .posInfinity, _ => false
  | _, .posInfinity => true
  | .finite a, .finite b => decide (a < b)

def equal : Exact → Exact → Bool
  | .nan, _ => false
  | a, b => decide (a = b)

/-- the ends of 128 bits -/
def greatest128 : Int := 0x7fffffffffffffffffffffffffffffff

def least128 : Int := -greatest128 - 1

def saturate128 (i : Int) : Int := max least128 (min i greatest128)

/-- the least integer that is not below, cut off at the ends of 128 bits; zero for "no number" -/
def ceiling128 : Exact → Int
  | .nan => 0
  | .negInfinity => least128
  | .finite steps => saturate128 (-(-steps / gridScale))
  | .posInfinity => greatest128

/-- the greatest integer that is not above, cut off at the ends of 128 bits; zero for "no number" -/
def floor128 : Exact → Int
  | .nan => 0
  | .negInfinity => least128
  | .finite steps => saturate128 (steps / gridScale)
  | .posInfinity => greatest128

theorem less_nan_left (b : Exact) : less .nan b = false := rfl
theorem less_nan_right (a : Exact) : less a .nan = false := by cases a <;> rfl
theorem less_finite (a b : Int) : less (.finite a) (.finite b) = decide (a < b) := rfl

theorem equal_nan_right (a : Exact) : equal a .nan = false := by cases a <;> rfl
theorem equal_self {a : Exact} (h : a ≠ .nan) : equal a a = true := by
  cases a with
  | nan => exact absurd rfl h
  | _ => simp [equal]

theorem less_ofInteger (m n : Int64) :
    less (ofInteger m) (ofInteger n) = decide (m.toInt < n.toInt) := by
  have h : (0 : Int) < gridScale := Int.ofNat_lt.mpr gridScale_pos
  rw [ofInteger, ofInteger, less_finite]
  exact decide_eq_decide.mpr (Int.mul_lt_mul_right h)

end Exact

/-! ## numbers -/

structure Binary64 where
  bits : UInt64
  deriving DecidableEq, Repr

namespace Binary64

/-- how many fractions there are in 52 bits, and how many exponents in eleven -/
def fractionCount : Nat := 0x10000000000000

def exponentCount : Nat := 0x800

def isNegative (x : Binary64) : Bool := x.bits.toNat.testBit 63

def exponentField (x : Binary64) : Nat := x.bits.toNat / fractionCount % exponentCount

def fraction (x : Binary64) : Nat := x.bits.toNat % fractionCount

/-- the magnitude of a finite number in steps of `2^-1074`: a fraction with a leading one, shifted
by the exponent, or for the least exponent the fraction alone -/
def magnitude (x : Binary64) : Nat :=
  if x.exponentField = 0 then x.fraction
  else (fractionCount + x.fraction) <<< (x.exponentField - 1)

def signed (x : Binary64) (steps : Nat) : Int :=
  if x.isNegative then -(steps : Int) else steps

/-- what the bits denote; the greatest exponent is kept for the infinities and "no number" -/
def exact (x : Binary64) : Exact :=
  if x.exponentField = exponentCount - 1 then
    if x.fraction = 0 then
      if x.isNegative then .negInfinity else .posInfinity
    else .nan
  else .finite (x.signed x.magnitude)

def isNaN (x : Binary64) : Bool := x.exact == .nan

/-! ### from parts -/

/-- the bits with the given sign and the given other 63 bits -/
def ofFields (negative : Bool) (rest : Nat) : Binary64 :=
  ⟨UInt64.ofNat ((if negative then exponentCount * fractionCount else 0) + rest)⟩

/-- the bits of the infinities, the sign apart -/
def infinityField : Nat := (exponentCount - 1) * fractionCount

def infinity (negative : Bool) : Binary64 := ofFields negative infinityField

def nan (negative : Bool) : Binary64 := ofFields negative (infinityField + fractionCount / 2)

theorem exact_infinity (negative : Bool) :
    (infinity negative).exact = if negative then .negInfinity else .posInfinity := by
  cases negative <;> rfl

/-! ### whole numbers -/

/-- a count of steps as an integer, when it is one that 64 bits hold -/
def integerOfSteps? (steps : Int) : Option Int64 :=
  if steps % gridScale = 0 then int64OfInt? (steps / gridScale) else none

def toInteger? (x : Binary64) : Option Int64 :=
  match x.exact with
  | .finite steps => integerOfSteps? steps
  | _ => none

theorem integerOfSteps?_eq_some {steps : Int} {n : Int64} :
    integerOfSteps? steps = some n ↔ steps = n.toInt * gridScale := by
  have h : (gridScale : Int) ≠ 0 := Int.ofNat_ne_zero.mpr (Nat.ne_of_gt gridScale_pos)
  unfold integerOfSteps?
  constructor
  · intro hs
    split at hs
    · next hd =>
      rw [int64OfInt?_eq_some] at hs
      rw [← hs]
      exact (Int.ediv_mul_cancel (Int.dvd_of_emod_eq_zero hd)).symm
    · cases hs
  · rintro rfl
    rw [if_pos (Int.mul_emod_left _ _), Int.mul_ediv_cancel _ h, int64OfInt?_toInt]

/-- a number has an integer exactly when it denotes that integer -/
theorem toInteger?_eq_some {x : Binary64} {n : Int64} :
    x.toInteger? = some n ↔ x.exact = .ofInteger n := by
  unfold toInteger? Exact.ofInteger
  cases h : x.exact with
  | finite steps =>
    exact integerOfSteps?_eq_some.trans ⟨fun e => congrArg Exact.finite e, Exact.finite.inj⟩
  | nan => exact ⟨nofun, nofun⟩
  | negInfinity => exact ⟨nofun, nofun⟩
  | posInfinity => exact ⟨nofun, nofun⟩

end Binary64

end ScriptTables
