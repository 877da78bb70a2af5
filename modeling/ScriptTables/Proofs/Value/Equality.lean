import ScriptTables.Proofs.Table.Naming
import ScriptTables.Proofs.Value.Order

/-!
# Raw equality, hashes and keys

Two values are raw equal when they denote one integer, or when they denote none and are the same; what
is no number is left out.  So raw equality is an equivalence on all other values, values that are equal
contribute the same to a hash, and numbers are equal exactly when they become one key of one kind.

* `Value.isNaN`, `Value.isInteger`   "no number", and the integers, as values;
* `rawEq_iff_denoted`      the two ways to be raw equal;
* `equality_coherent`      what follows for equality, hashes and keys.
-/

namespace ScriptTables

namespace Value

def isNaN : Value → Bool
  | .number x => x.isNaN
  | _ => false

def isInteger : Value → Bool
  | .integer _ => true
  | _ => false

variable {a b c : Value} {n : Int64}

theorem amount?_of_isNaN (h : a.isNaN = true) : a.typeName = .number ∧ a.amount? = none := by
  cases a with
  | number x =>
    refine ⟨rfl, ?_⟩
    have hexact := Binary64.isNaN_iff.mp h
    show x.amount? = none
    rw [x.amount?_eq, hexact]
    rfl
  | _ => cases h

theorem isNaN_of_denoted (h : a.denoted? = some n) : a.isNaN = false := by
  cases a with
  | number x =>
    refine Binary64.isNaN_eq_false_iff.mpr fun hnan => ?_
    have hexact := Binary64.toInteger?_eq_some.mp h
    rw [hnan] at hexact
    cases hexact
  | _ => rfl

/-! ## equality -/

/-- **Values are raw equal when they denote one integer, or none and are the same.** -/
theorem rawEq_iff_denoted : a.rawEq b = true ↔
    (∃ n, a.denoted? = some n ∧ b.denoted? = some n) ∨
      a.denoted? = none ∧ a.isNaN = false ∧ a = b := by
  cases hd : a.denoted? with
  | some n => simp [rawEq_of_denoted hd]
  | none =>
    cases hnan : a.isNaN with
    | true =>
      obtain ⟨hnumber, hnone⟩ := amount?_of_isNaN hnan
      simp [(rawEq_of_amount?_eq_none hnumber hnone b).1]
    | false =>
      have hfloat : ∀ x, a = .number x → x.isNaN = false := by
        rintro x rfl
        exact hnan
      simp [rawEq_of_not_denoted hd hfloat]

theorem rawEq_of_rawEq (h : a.rawEq b = true) : b.rawEq a = true := by
  rw [rawEq_iff_denoted] at h ⊢
  rcases h with ⟨n, ha, hb⟩ | ⟨hd, hnan, rfl⟩
  · exact Or.inl ⟨n, hb, ha⟩
  · exact Or.inr ⟨hd, hnan, rfl⟩

theorem rawEq_comm (a b : Value) : a.rawEq b = b.rawEq a :=
  Bool.eq_iff_iff.mpr ⟨rawEq_of_rawEq, rawEq_of_rawEq⟩

theorem rawEq_trans (hab : a.rawEq b = true) (hbc : b.rawEq c = true) : a.rawEq c = true := by
  rcases rawEq_iff_denoted.mp hab with ⟨n, ha, hb⟩ | ⟨_, _, rfl⟩
  · rw [rawEq_of_denoted ha]
    exact (rawEq_of_denoted hb).mp hbc
  · exact hbc

theorem rawEq_self_iff : a.rawEq a = true ↔ a.isNaN = false := by
  rw [rawEq_iff_denoted]
  cases hd : a.denoted? with
  | some n => simp [isNaN_of_denoted hd]
  | none => simp

/-! ## hashes and keys -/

theorem hashData_of_denoted (h : a.denoted? = some n) : a.hashData = .integer n := by
  cases a with
  | integer m =>
    cases h
    rfl
  | number x =>
    have hx : x.toInteger? = some n := h
    simp only [hashData, hx]
  | _ => cases h

theorem hashData_eq_of_rawEq (h : a.rawEq b = true) : a.hashData = b.hashData := by
  rcases rawEq_iff_denoted.mp h with ⟨n, ha, hb⟩ | ⟨_, _, rfl⟩
  · rw [hashData_of_denoted ha, hashData_of_denoted hb]
  · rfl

theorem normalizeKey_of_denoted (h : a.denoted? = some n) : a.normalizeKey = .integer n := by
  cases a with
  | integer m =>
    cases h
    rfl
  | number x =>
    have hx : x.toInteger? = some n := h
    simp only [normalizeKey, hx]
  | _ => cases h

theorem normalizeKey_of_not_denoted (h : a.denoted? = none) : a.normalizeKey = a := by
  cases a with
  | number x =>
    have hx : x.toInteger? = none := h
    simp only [normalizeKey, hx]
  | _ => rfl

theorem denoted?_normalizeKey (a : Value) : a.normalizeKey.denoted? = a.denoted? := by
  cases hd : a.denoted? with
  | some n =>
    rw [normalizeKey_of_denoted hd]
    rfl
  | none => rw [normalizeKey_of_not_denoted hd, hd]

theorem rawEq_normalizeKey (a b : Value) : a.normalizeKey.rawEq b.normalizeKey = a.rawEq b := by
  have hfirst : ∀ v w : Value, v.normalizeKey.rawEq w = v.rawEq w := by
    intro v w
    cases hv : v.denoted? with
    | some n =>
      have hkey := (denoted?_normalizeKey v).trans hv
      rw [Bool.eq_iff_iff, rawEq_of_denoted hkey, rawEq_of_denoted hv]
    | none => rw [normalizeKey_of_not_denoted hv]
  rw [hfirst, rawEq_comm, hfirst, rawEq_comm]

theorem denoted?_eq_of_rawEq (h : a.rawEq b = true) : a.denoted? = b.denoted? := by
  rcases rawEq_iff_denoted.mp h with ⟨n, ha, hb⟩ | ⟨_, _, rfl⟩
  · rw [ha, hb]
  · rfl

theorem isInteger_normalizeKey (a : Value) : a.normalizeKey.isInteger = a.denoted?.isSome := by
  cases hd : a.denoted? with
  | some n =>
    rw [normalizeKey_of_denoted hd]
    rfl
  | none =>
    rw [normalizeKey_of_not_denoted hd]
    cases a with
    | integer m => cases hd
    | _ => rfl

end Value

/-- **Raw equality is an equivalence on all values but what is no number, and hashes and keys go along
with it.**  Values that are equal contribute the same to a hash, and two values are equal exactly when
the keys that they become are equal and of one kind, integers both or neither. -/
theorem equality_coherent :
    (∀ a b : Value, a.rawEq b = b.rawEq a) ∧
    (∀ a b c : Value, a.rawEq b = true → b.rawEq c = true → a.rawEq c = true) ∧
    (∀ a : Value, a.rawEq a = true ↔ a.isNaN = false) ∧
    (∀ a b : Value, a.rawEq b = true → a.hashData = b.hashData) ∧
    ∀ a b : Value, a.rawEq b = true ↔ a.normalizeKey.rawEq b.normalizeKey = true ∧
      a.normalizeKey.isInteger = b.normalizeKey.isInteger := by
  refine ⟨Value.rawEq_comm, fun _ _ _ => Value.rawEq_trans, fun _ => Value.rawEq_self_iff,
    fun _ _ => Value.hashData_eq_of_rawEq, fun a b => ?_⟩
  rw [Value.rawEq_normalizeKey]
  refine (and_iff_left_of_imp fun h => ?_).symm
  rw [Value.isInteger_normalizeKey, Value.isInteger_normalizeKey, Value.denoted?_eq_of_rawEq h]

/-- the float two to the fifty-third, the integer, and their key -/
theorem equality_coherent_mixed :
    (Value.integer 9007199254740992).rawEq (.number ⟨0x4340000000000000⟩) = true ∧
    (Value.integer 9007199254740992).hashData = (Value.number ⟨0x4340000000000000⟩).hashData ∧
    (Value.number ⟨0x4340000000000000⟩).normalizeKey.isInteger
      = (Value.integer 9007199254740992).normalizeKey.isInteger ∧
    (Value.number ⟨0x7ff8000000000000⟩).rawEq (.number ⟨0x7ff8000000000000⟩) = false := by
  have hequal : (Value.integer 9007199254740992).rawEq (.number ⟨0x4340000000000000⟩) = true := by
    decide +kernel
  have hnan : (Value.number ⟨0x7ff8000000000000⟩).isNaN = true := by decide +kernel
  exact ⟨hequal, equality_coherent.2.2.2.1 _ _ hequal,
    ((equality_coherent.2.2.2.2 _ _).mp hequal).2.symm,
    by rw [Bool.eq_false_iff, ne_eq, equality_coherent.2.2.1, hnan]; decide⟩

end ScriptTables
