import ScriptTables.Proofs.Numeric.Exact
import ScriptTables.Table.Key
import Mathlib.Tactic.ByContra

/-!
# Raw equal values name the same key

A value that denotes an integer names that integer, whichever kind of number it is; every other value
names itself.  Raw equality is defined without keys, by the exact values of numbers, and comes to the
same.

* `Value.denoted?`       the integer that a value denotes, as itself or as a float;
* `ofValue?_integer_iff`   it is the key that the value names;
* `rawEq_iff`            raw equality, by keys.
-/

namespace ScriptTables

def Value.denoted? : Value → Option Int64
  | .integer n => some n
  | .number x => x.toInteger?
  | _ => none

namespace Key

variable {v : Value} {k : Key} {n : Int64}

theorem ofValue?_integer_iff : ofValue? v = .ok (.integer n) ↔ v.denoted? = some n := by
  cases v with
  | integer m => simp [ofValue?, Value.normalizeKey, Value.denoted?]
  | number x =>
    show _ ↔ x.toInteger? = some n
    cases hx : x.toInteger? with
    | some m =>
      rw [ofValue?_of_integer hx]
      simp
    | none =>
      cases hnan : x.isNaN with
      | true => simp [ofValue?_of_isNaN hx hnan]
      | false => simp [ofValue?_of_fraction hx hnan]
  | _ => simp [ofValue?, Value.normalizeKey, Value.denoted?]

theorem toValue_of_ofValue? (h : ofValue? v = .ok k) (hv : v.denoted? = none) : k.toValue = v := by
  cases v with
  | nil => cases h
  | integer m => cases hv
  | number x =>
    cases hnan : x.isNaN with
    | true =>
      rw [ofValue?_of_isNaN hv hnan] at h
      cases h
    | false =>
      rw [ofValue?_of_fraction hv hnan] at h
      cases h
      rfl
  | _ =>
    cases h
    rfl

theorem ofValue?_error_cases {fault : Fault} (h : ofValue? v = .error fault) :
    fault = .keyIsNil ∧ v = .nil ∨
      fault = .keyIsNaN ∧ ∃ x, v = .number x ∧ x.isNaN = true := by
  cases v with
  | nil =>
    cases h
    exact Or.inl ⟨rfl, rfl⟩
  | number x =>
    cases hx : x.toInteger? with
    | some m =>
      rw [ofValue?_of_integer hx] at h
      cases h
    | none =>
      cases hnan : x.isNaN with
      | true =>
        rw [ofValue?_of_isNaN hx hnan] at h
        cases h
        exact Or.inr ⟨rfl, x, rfl, hnan⟩
      | false =>
        rw [ofValue?_of_fraction hx hnan] at h
        cases h
  | _ => cases h

/-- only `nil` and what is no number name no key -/
theorem ofValue?_error_iff :
    (∃ fault, ofValue? v = .error fault) ↔ v = .nil ∨ ∃ x, v = .number x ∧ x.isNaN = true := by
  constructor
  · rintro ⟨fault, h⟩
    exact (ofValue?_error_cases h).imp And.right And.right
  · rintro (rfl | ⟨x, rfl, hnan⟩)
    · exact ⟨.keyIsNil, rfl⟩
    · cases hx : x.toInteger? with
      | some m =>
        rw [Binary64.isNaN, Binary64.toInteger?_eq_some.mp hx] at hnan
        cases hnan
      | none => exact ⟨.keyIsNaN, ofValue?_of_isNaN hx hnan⟩

end Key

namespace Value

variable {a b : Value} {n : Int64}

theorem rawEq_of_denoted (ha : a.denoted? = some n) :
    a.rawEq b = true ↔ b.denoted? = some n := by
  cases a with
  | integer m =>
    have hm : m = n := Option.some.inj ha
    subst hm
    cases b with
    | integer k =>
      show (m == k) = true ↔ some k = some m
      rw [beq_iff_eq, Option.some.injEq]
      exact eq_comm
    | number y => exact beq_iff_eq
    | _ => simp [rawEq, denoted?]
  | number x =>
    have hx : x.toInteger? = some n := ha
    cases b with
    | integer m =>
      show (x.toInteger? == some m) = true ↔ some m = some n
      rw [hx, beq_iff_eq]
      exact eq_comm
    | number y =>
      have hexact := Binary64.toInteger?_eq_some.mp hx
      show x.exact.equal y.exact = true ↔ y.toInteger? = some n
      rw [Exact.equal_iff, hexact, Binary64.toInteger?_eq_some]
      constructor
      · intro h
        exact h.1.symm
      · intro h
        exact ⟨h.symm, fun e => by cases e⟩
    | _ => simp [rawEq, denoted?]
  | _ => cases ha

theorem rawEq_of_not_denoted (ha : a.denoted? = none)
    (hnan : ∀ x, a = .number x → x.isNaN = false) : a.rawEq b = true ↔ a = b := by
  cases a with
  | integer m => cases ha
  | number x =>
    have hx : x.toInteger? = none := ha
    cases b with
    | integer m => simp [rawEq, hx]
    | number y =>
      have hnumber : x.exact ≠ .nan := by
        intro e
        have hfalse := hnan x rfl
        rw [Binary64.isNaN, e] at hfalse
        cases hfalse
      -- zero is an integer, so the two forms of zero do not come in here
      have hzero : x.exact ≠ .finite 0 := by
        intro e
        have hint : x.toInteger? = some 0 := 
          Binary64.toInteger?_eq_some.mpr (e.trans Exact.ofInteger_zero.symm)
        rw [hx] at hint
        cases hint
      show x.exact.equal y.exact = true ↔ _
      rw [Exact.equal_iff, Value.number.injEq]
      constructor
      · intro h
        exact Binary64.exact_injective h.1 hnumber hzero
      · intro h
        exact ⟨by rw [h], hnumber⟩
    | _ => simp [rawEq]
  | _ => cases b <;> simp [rawEq]

/-- **Values are raw equal exactly when they name the same key.** -/
theorem rawEq_iff {j k : Key} (ha : Key.ofValue? a = .ok j) (hb : Key.ofValue? b = .ok k) :
    a.rawEq b = true ↔ j = k := by
  cases hda : a.denoted? with
  | some n =>
    have hj : j = .integer n := by
      have h := Key.ofValue?_integer_iff.mpr hda
      rw [ha] at h
      exact Except.ok.inj h
    rw [rawEq_of_denoted hda, ← Key.ofValue?_integer_iff, hb, hj, Except.ok.injEq]
    exact eq_comm
  | none =>
    have hnan : ∀ x, a = .number x → x.isNaN = false := by
      intro x e
      by_contra hx
      have herror := Key.ofValue?_error_iff.mpr (Or.inr ⟨x, e, (Bool.not_eq_false _).mp hx⟩)
      obtain ⟨fault, hfault⟩ := herror
      rw [ha] at hfault
      cases hfault
    rw [rawEq_of_not_denoted hda hnan]
    constructor
    · intro e
      rw [e, hb] at ha
      exact (Except.ok.inj ha).symm
    · intro e
      subst e
      have hdb : b.denoted? = none := by
        cases hdb : b.denoted? with
        | none => rfl
        | some n =>
          have hint := Key.ofValue?_integer_iff.mpr hdb
          rw [hb] at hint
          rw [Except.ok.inj hint, Key.ofValue?_integer_iff, hda] at ha
          cases ha
      rw [← Key.toValue_of_ofValue? ha hda, Key.toValue_of_ofValue? hb hdb]

end Value

end ScriptTables
