import ScriptTables.Machine.Call
import ScriptTables.Proofs.Numeric.Amount
import ScriptTables.Proofs.Sort.Arrangement

/-!
# The order of numbers

Two numbers of one kind are compared directly; an integer and a float are compared through the whole
number next to the float, above it or below it, which is cut off at the ends of 128 bits.  All four
ways come to one order, that of what the numbers amount to, and raw equality is the equality of this
order, although it is defined through the integer that a float denotes.

* `less_ofInteger_left`, `less_ofInteger_right`   the next whole number decides;
* `Value.exactValue?`, `Value.amount?`             what a number of either kind denotes and amounts to;
* `less?_eq_less`, `rawEq_eq_equal`               order and equality by exact values;
* `below`                                         the order of the host;
* `numbers_ordered`                               it is a strict weak order of the numbers, and the
                                                  right one.
-/

namespace ScriptTables

/-! ## an integer and a float -/

namespace Exact

theorem saturate128_eq (i : Int) : saturate128 i = max (-2 ^ 127) (min i (2 ^ 127 - 1)) := rfl

/-- cutting off at 128 bits keeps what is above an integer of 64 bits and what is not -/
theorem lt_saturate128 (m : Int64) (i : Int) : m.toInt < saturate128 i ↔ m.toInt < i := by
  have hlow := m.le_toInt
  have hhigh := m.toInt_lt
  rw [saturate128_eq]
  omega

theorem saturate128_lt (n : Int64) (i : Int) : saturate128 i < n.toInt ↔ i < n.toInt := by
  have hlow := n.le_toInt
  have hhigh := n.toInt_lt
  rw [saturate128_eq]
  omega

/-- an integer is below a value exactly when it is below the next whole number -/
theorem less_ofInteger_left (m : Int64) {a : Exact} (hnan : a ≠ .nan) :
    (ofInteger m).less a = true ↔ m.toInt < a.ceiling128 := by
  have hlow := m.le_toInt
  have hhigh := m.toInt_lt
  have hpos : (0 : Int) < gridScale := Int.ofNat_lt.mpr gridScale_pos
  cases a with
  | nan => exact absurd rfl hnan
  | negInfinity => exact iff_of_false Bool.false_ne_true (show ¬m.toInt < -2 ^ 127 by omega)
  | finite steps =>
    rw [ofInteger, less_finite, decide_eq_true_iff, ceiling128, lt_saturate128]
    have hdiv : -steps / gridScale < -m.toInt ↔ -steps < -m.toInt * gridScale :=
      Int.ediv_lt_iff_lt_mul hpos
    rw [Int.neg_mul] at hdiv
    omega
  | posInfinity => exact iff_of_true rfl (show m.toInt < 2 ^ 127 - 1 by omega)

theorem less_ofInteger_right (n : Int64) {a : Exact} (hnan : a ≠ .nan) :
    a.less (ofInteger n) = true ↔ a.floor128 < n.toInt := by
  have hlow := n.le_toInt
  have hhigh := n.toInt_lt
  have hpos : (0 : Int) < gridScale := Int.ofNat_lt.mpr gridScale_pos
  cases a with
  | nan => exact absurd rfl hnan
  | negInfinity => exact iff_of_true rfl (show -2 ^ 127 < n.toInt by omega)
  | finite steps =>
    rw [ofInteger, less_finite, decide_eq_true_iff, floor128, saturate128_lt]
    exact (Int.ediv_lt_iff_lt_mul hpos).symm
  | posInfinity => exact iff_of_false Bool.false_ne_true (show ¬2 ^ 127 - 1 < n.toInt by omega)

theorem ofInteger_inj {m n : Int64} : ofInteger m = ofInteger n ↔ m = n := by
  have hne : (gridScale : Int) ≠ 0 := Int.ofNat_ne_zero.mpr (Nat.ne_of_gt gridScale_pos)
  rw [ofInteger, ofInteger, finite.injEq, Int.mul_eq_mul_right_iff hne, Int64.toInt_inj]

end Exact

theorem Binary64.isNaN_iff {x : Binary64} : x.isNaN = true ↔ x.exact = .nan := by
  rw [isNaN, beq_iff_eq]

theorem Binary64.isNaN_eq_false_iff {x : Binary64} : x.isNaN = false ↔ x.exact ≠ .nan := by
  rw [isNaN, beq_eq_false_iff_ne]

namespace Value

theorem integerBelowFloat_eq (m : Int64) (y : Binary64) :
    integerBelowFloat m y = (Exact.ofInteger m).less y.exact := by
  unfold integerBelowFloat
  cases hnan : y.isNaN with
  | true =>
    rw [Binary64.isNaN_iff.mp hnan, Exact.less_nan_right]
    rfl
  | false =>
    rw [Bool.not_false, Bool.true_and, Bool.eq_iff_iff, decide_eq_true_iff,
      Exact.less_ofInteger_left m (Binary64.isNaN_eq_false_iff.mp hnan)]

theorem floatBelowInteger_eq (x : Binary64) (n : Int64) :
    floatBelowInteger x n = x.exact.less (Exact.ofInteger n) := by
  unfold floatBelowInteger
  cases hnan : x.isNaN with
  | true =>
    rw [Binary64.isNaN_iff.mp hnan, Exact.less_nan_left]
    rfl
  | false =>
    rw [Bool.not_false, Bool.true_and, Bool.eq_iff_iff, decide_eq_true_iff,
      Exact.less_ofInteger_right n (Binary64.isNaN_eq_false_iff.mp hnan)]

/-! ## all numbers -/

/-- the exact value of a number of either kind -/
def exactValue? : Value → Option Exact
  | .integer n => some (.ofInteger n)
  | .number x => some x.exact
  | _ => none

def amount? : Value → Option Amount
  | .integer n => some (.ofRat n.toInt)
  | .number x => x.amount?
  | _ => none

variable {a b : Value} {p q : Exact}

theorem exists_exactValue? (h : a.typeName = .number) : ∃ p, a.exactValue? = some p := by
  cases a with
  | integer n => exact ⟨_, rfl⟩
  | number x => exact ⟨_, rfl⟩
  | _ => cases h

theorem amount?_eq (h : a.exactValue? = some p) : a.amount? = p.amount? := by
  cases a with
  | integer n =>
    cases h
    exact (Exact.amount?_ofInteger n).symm
  | number x =>
    cases h
    exact x.amount?_eq
  | _ => cases h

theorem exists_of_amount? {r : Amount} (h : a.amount? = some r) :
    ∃ p, a.exactValue? = some p ∧ p.amount? = some r := by
  cases a with
  | integer n => exact ⟨_, rfl, (Exact.amount?_ofInteger n).trans h⟩
  | number x => exact ⟨_, rfl, x.amount?_eq.symm.trans h⟩
  | _ => cases h

/-- the order of numbers is that of their exact values, whichever kind they are of -/
theorem less?_eq_less (ha : a.exactValue? = some p) (hb : b.exactValue? = some q) :
    a.less? b = some (p.less q) := by
  cases a with
  | integer m =>
    cases ha
    cases b with
    | integer n =>
      cases hb
      rw [Exact.less_ofInteger]
      exact congrArg some (decide_eq_decide.mpr Int64.lt_iff_toInt_lt)
    | number y =>
      cases hb
      exact congrArg some (integerBelowFloat_eq m y)
    | _ => cases hb
  | number x =>
    cases ha
    cases b with
    | integer n =>
      cases hb
      exact congrArg some (floatBelowInteger_eq x n)
    | number y =>
      cases hb
      rfl
    | _ => cases hb
  | _ => cases ha

theorem rawEq_eq_equal (ha : a.exactValue? = some p) (hb : b.exactValue? = some q) :
    a.rawEq b = p.equal q := by
  rw [Bool.eq_iff_iff, Exact.equal_iff]
  cases a with
  | integer m =>
    cases ha
    have hnan : Exact.ofInteger m ≠ .nan := nofun
    cases b with
    | integer n =>
      cases hb
      rw [and_iff_left hnan, Exact.ofInteger_inj]
      exact beq_iff_eq
    | number y =>
      cases hb
      rw [and_iff_left hnan, @eq_comm _ (Exact.ofInteger m), ← Binary64.toInteger?_eq_some]
      exact beq_iff_eq
    | _ => cases hb
  | number x =>
    cases ha
    cases b with
    | integer n =>
      cases hb
      have hnan : x.exact = .ofInteger n → x.exact ≠ .nan := fun h => h ▸ nofun
      rw [and_iff_left_of_imp hnan, ← Binary64.toInteger?_eq_some]
      exact beq_iff_eq
    | number y =>
      cases hb
      exact Exact.equal_iff
    | _ => cases hb
  | _ => cases ha

/-! ## amounts -/

section
variable {r s : Amount}

theorem less?_of_amounts (ha : a.amount? = some r) (hb : b.amount? = some s) :
    a.less? b = some (decide (r < s)) := by
  obtain ⟨p, hp, hr⟩ := exists_of_amount? ha
  obtain ⟨q, hq, hs⟩ := exists_of_amount? hb
  rw [less?_eq_less hp hq, Option.some.injEq, Bool.eq_iff_iff, Exact.less_iff, hr, hs]
  simp

theorem rawEq_of_amounts (ha : a.amount? = some r) (hb : b.amount? = some s) :
    a.rawEq b = decide (r = s) := by
  obtain ⟨p, hp, hr⟩ := exists_of_amount? ha
  obtain ⟨q, hq, hs⟩ := exists_of_amount? hb
  rw [rawEq_eq_equal hp hq, Bool.eq_iff_iff, Exact.equal_iff_amount, hr, hs]
  simp [eq_comm]

theorem exactValue?_of_amount?_eq_none (ha : a.typeName = .number) (hnone : a.amount? = none) :
    a.exactValue? = some .nan := by
  obtain ⟨p, hp⟩ := exists_exactValue? ha
  rw [amount?_eq hp, Exact.amount?_eq_none] at hnone
  rw [hp, hnone]

end

end Value

/-! ## the order -/

/-- the order of the host, where there is one without hooks -/
def below (a b : Value) : Bool := (a.less? b).getD false

section
variable {a b : Value} {r s : Amount}

theorem below_of_amounts (ha : a.amount? = some r) (hb : b.amount? = some s) :
    below a b = decide (r < s) := by
  rw [below, Value.less?_of_amounts ha hb]
  rfl

theorem strictWeak_numbers : StrictWeak (fun a : Value => ∃ r, a.amount? = some r) below where
  irrefl := by
    rintro a ⟨r, ha⟩
    rw [below_of_amounts ha ha]
    exact decide_eq_false (lt_irrefl r)
  trans := by
    rintro a b c ⟨r, ha⟩ ⟨s, hb⟩ ⟨t, hc⟩ hab hbc
    rw [below_of_amounts ha hb] at hab
    rw [below_of_amounts hb hc] at hbc
    rw [below_of_amounts ha hc]
    exact decide_eq_true (lt_trans (of_decide_eq_true hab) (of_decide_eq_true hbc))
  incomparable_trans := by
    rintro a b c ⟨r, ha⟩ ⟨s, hb⟩ ⟨t, hc⟩ hab _ hbc _
    rw [below_of_amounts ha hb] at hab
    rw [below_of_amounts hb hc] at hbc
    rw [below_of_amounts ha hc]
    have hsr := not_lt.mp (of_decide_eq_false hab)
    have hts := not_lt.mp (of_decide_eq_false hbc)
    exact decide_eq_false (not_lt.mpr (hts.trans hsr))

/-- of two numbers one is below the other, or they are equal, and only one of the three -/
theorem below_trichotomy (ha : a.amount? = some r) (hb : b.amount? = some s) :
    below a b = true ∧ a.rawEq b = false ∧ below b a = false ∨
    below a b = false ∧ a.rawEq b = true ∧ below b a = false ∨
    below a b = false ∧ a.rawEq b = false ∧ below b a = true := by
  rw [below_of_amounts ha hb, below_of_amounts hb ha, Value.rawEq_of_amounts ha hb]
  rcases lt_trichotomy r s with h | h | h
  · exact Or.inl ⟨decide_eq_true h, decide_eq_false h.ne, decide_eq_false h.not_gt⟩
  · exact Or.inr (Or.inl ⟨decide_eq_false h.not_lt, decide_eq_true h, decide_eq_false h.not_gt⟩)
  · exact Or.inr (Or.inr ⟨decide_eq_false h.not_gt, decide_eq_false h.ne', decide_eq_true h⟩)

theorem below_of_amount?_eq_none (ha : a.typeName = .number) (hnone : a.amount? = none)
    (hb : b.typeName = .number) : below a b = false ∧ below b a = false := by
  have hnan := Value.exactValue?_of_amount?_eq_none ha hnone
  obtain ⟨q, hq⟩ := Value.exists_exactValue? hb
  rw [below, below, Value.less?_eq_less hnan hq, Value.less?_eq_less hq hnan, Exact.less_nan_right]
  exact ⟨rfl, rfl⟩

theorem rawEq_of_amount?_eq_none (ha : a.typeName = .number) (hnone : a.amount? = none) (b : Value) :
    a.rawEq b = false ∧ b.rawEq a = false := by
  have hnan := Value.exactValue?_of_amount?_eq_none ha hnone
  by_cases hb : b.typeName = .number
  · obtain ⟨q, hq⟩ := Value.exists_exactValue? hb
    rw [Value.rawEq_eq_equal hnan hq, Value.rawEq_eq_equal hq hnan, Exact.equal_nan_right]
    exact ⟨rfl, rfl⟩
  · cases a with
    | number x => cases b <;> simp_all [Value.rawEq, Value.typeName]
    | integer n => cases hnone
    | _ => cases ha

theorem lessThan_run (call : Caller) (m : Machine) (ha : a.typeName = .number)
    (hb : b.typeName = .number) : (EvalM.lessThan call a b).run m = .ok (below a b) m := by
  obtain ⟨p, hp⟩ := Value.exists_exactValue? ha
  obtain ⟨q, hq⟩ := Value.exists_exactValue? hb
  unfold EvalM.lessThan below
  rw [Value.less?_eq_less hp hq]
  rfl

theorem below_iff (ha : a.typeName = .number) (hb : b.typeName = .number) :
    below a b = true ↔ ∃ r s, a.amount? = some r ∧ b.amount? = some s ∧ r < s := by
  obtain ⟨p, hp⟩ := Value.exists_exactValue? ha
  obtain ⟨q, hq⟩ := Value.exists_exactValue? hb
  rw [below, Value.less?_eq_less hp hq, Value.amount?_eq hp, Value.amount?_eq hq]
  exact Exact.less_iff

end

/-- **The comparison of numbers is one order for both kinds, and raw equality is its equality.**  It
never fails, asks for nothing and changes nothing, and it says yes exactly when both amount to
something and the first to less than the second. -/
theorem numbers_ordered :
    (∀ (call : Caller) (m : Machine) (a b : Value), a.typeName = .number → b.typeName = .number →
      (EvalM.lessThan call a b).run m = .ok (below a b) m ∧
      (below a b = true ↔ ∃ r s, a.amount? = some r ∧ b.amount? = some s ∧ r < s)) ∧
    StrictWeak (fun a : Value => ∃ r, a.amount? = some r) below ∧
    (∀ a b : Value, (∃ r, a.amount? = some r) → (∃ s, b.amount? = some s) →
      below a b = true ∧ a.rawEq b = false ∧ below b a = false ∨
      below a b = false ∧ a.rawEq b = true ∧ below b a = false ∨
      below a b = false ∧ a.rawEq b = false ∧ below b a = true) ∧
    (∀ a : Value, a.typeName = .number → a.amount? = none →
      (∀ b : Value, b.typeName = .number → below a b = false ∧ below b a = false) ∧
      ∀ b : Value, a.rawEq b = false ∧ b.rawEq a = false) :=
  ⟨fun call m _ _ ha hb => ⟨lessThan_run call m ha hb, below_iff ha hb⟩, strictWeak_numbers,
    fun _ _ ⟨_, ha⟩ ⟨_, hb⟩ => below_trichotomy ha hb,
    fun _ ha hnone => ⟨fun _ hb => below_of_amount?_eq_none ha hnone hb,
      rawEq_of_amount?_eq_none ha hnone⟩⟩

/-- the greatest integer is below the float next above it, and "no number" is not below zero -/
theorem numbers_ordered_greatest :
    (EvalM.lessThan EvalM.call (.integer Int64.maxValue) (.number ⟨0x43e0000000000000⟩)).run
      { heap := {}, globals := ⟨0⟩, limits := {} }
        = .ok true { heap := {}, globals := ⟨0⟩, limits := {} } ∧
    (∃ r s, (Value.integer Int64.maxValue).amount? = some r ∧
      (Value.number ⟨0x43e0000000000000⟩).amount? = some s ∧ r < s) ∧
    below (.number ⟨0x7ff8000000000000⟩) (.integer 0) = false := by
  have hmixed := numbers_ordered.1 EvalM.call { heap := {}, globals := ⟨0⟩, limits := {} }
    (.integer Int64.maxValue) (.number ⟨0x43e0000000000000⟩) rfl rfl
  have hbelow : below (.integer Int64.maxValue) (.number ⟨0x43e0000000000000⟩) = true := by
    decide +kernel
  have hnan := numbers_ordered.2.2.2 (.number ⟨0x7ff8000000000000⟩) rfl rfl
  exact ⟨hbelow ▸ hmixed.1, hmixed.2.mp hbelow, (hnan.1 (.integer 0) rfl).1⟩

end ScriptTables
