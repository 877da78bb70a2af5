import ScriptTables.Proofs.Table.Naming
import ScriptTables.Table.Lemmas
import Mathlib.Data.List.Induction

/-!
# A table remembers the last write

Whatever was written before, and wherever it is kept: under a key a table holds what the last write
under a raw equal key left there, and where there was none, what it was made with.

* `Write`                  a write in one of three ways;
* `Table.afterAll`         a table after some writes, of which those that fail change nothing;
* `lastWrite?`             the last of them that did not fail and was under a raw equal key;
* `get_afterAll`           what is read after a history, by keys;
* `finite_map`             the law, by values.
-/

namespace ScriptTables

/-! ## histories -/

inductive Write where
  | set (k v : Value)
  | setInteger (n : Int64) (v : Value)
  | setString (s : String) (v : Value)

namespace Write

def key : Write → Value
  | .set k _ => k
  | .setInteger n _ => .integer n
  | .setString s _ => .string s

def value : Write → Value
  | .set _ v => v
  | .setInteger _ v => v
  | .setString _ v => v

def apply (w : Write) (t : Table) : Except Fault Table :=
  match w with
  | .set k v => t.set k v
  | .setInteger n v => .ok (t.setInteger n v)
  | .setString s v => .ok (t.setString s v)

/-- whether a write is one under a key that is raw equal to `k`, and does not fail -/
def isUnder (k : Value) (w : Write) : Bool := (Key.ofValue? w.key).isOk && w.key.rawEq k

variable {w : Write} {j : Key}

theorem apply_of_ok (h : Key.ofValue? w.key = .ok j) (t : Table) :
    w.apply t = .ok (t.setKey j w.value) := by
  cases w with
  | set k v => exact Table.set_of_ok h
  | setInteger n v =>
    cases h
    rfl
  | setString s v =>
    cases h
    rfl

theorem apply_of_error {fault : Fault} (h : Key.ofValue? w.key = .error fault) (t : Table) :
    w.apply t = .error fault := by
  cases w with
  | set k v => exact Table.set_of_error h
  | setInteger n v => cases h
  | setString s v => cases h

theorem isUnder_of_ok {k : Value} {i : Key} (hk : Key.ofValue? k = .ok i)
    (h : Key.ofValue? w.key = .ok j) : w.isUnder k = decide (j = i) := by
  rw [isUnder, h, Bool.eq_iff_iff, decide_eq_true_iff]
  exact Value.rawEq_iff h hk

theorem isUnder_of_error {k : Value} {fault : Fault} (h : Key.ofValue? w.key = .error fault) :
    w.isUnder k = false := by
  rw [isUnder, h]
  rfl

end Write

/-- the last write under a key that did not fail -/
def lastWrite? (ws : List Write) (k : Value) : Option Write := ws.reverse.find? fun w => w.isUnder k

/-- the value that a table of given values holds under a key -/
def givenValue (vs : List Value) (k : Value) : Value :=
  match k.denoted? with
  | some n => if 1 ≤ n.toInt ∧ n.toInt ≤ vs.length then vs.getD (n.toInt.toNat - 1) .nil else .nil
  | none => .nil

theorem lastWrite?_concat (ws : List Write) (w : Write) (k : Value) :
    lastWrite? (ws ++ [w]) k = if w.isUnder k then some w else lastWrite? ws k := by
  unfold lastWrite?
  rw [List.reverse_append]
  show List.find? _ (w :: ws.reverse) = _
  rw [List.find?_cons]
  cases w.isUnder k <;> rfl

namespace Table

/-- a table after a write; a write that fails changes nothing -/
def after (t : Table) (w : Write) : Table :=
  match w.apply t with
  | .ok t' => t'
  | .error _ => t

def afterAll (t : Table) (ws : List Write) : Table := ws.foldl after t

theorem afterAll_concat (t : Table) (ws : List Write) (w : Write) :
    t.afterAll (ws ++ [w]) = (t.afterAll ws).after w := by
  rw [afterAll, List.foldl_append]
  rfl

section
variable {t : Table} {w : Write}

theorem after_of_ok {j : Key} (h : Key.ofValue? w.key = .ok j) (t : Table) :
    t.after w = t.setKey j w.value := by
  rw [after, w.apply_of_ok h]

theorem after_of_error {fault : Fault} (h : Key.ofValue? w.key = .error fault) (t : Table) :
    t.after w = t := by
  rw [after, w.apply_of_error h]

theorem WellFormed.after (ht : t.WellFormed) (w : Write) : (t.after w).WellFormed := by
  cases h : Key.ofValue? w.key with
  | ok j =>
    rw [after_of_ok h]
    exact ht.setKey (Key.isNormal_of_ofValue? h) w.value
  | error fault =>
    rw [after_of_error h]
    exact ht

theorem WellFormed.afterAll (ht : t.WellFormed) (ws : List Write) : (t.afterAll ws).WellFormed := by
  induction ws using List.reverseRecOn with
  | nil => exact ht
  | append_singleton ws w ih =>
    rw [afterAll_concat]
    exact ih.after w

end

/-! ## the law -/

theorem get_afterAll {t : Table} (ht : t.WellFormed) {k : Value} {i : Key}
    (hk : Key.ofValue? k = .ok i) (ws : List Write) :
    (t.afterAll ws).get k = match lastWrite? ws k with
      | some w => w.value
      | none => t.get k := by
  induction ws using List.reverseRecOn with
  | nil => rfl
  | append_singleton ws w ih =>
    rw [afterAll_concat, lastWrite?_concat]
    cases h : Key.ofValue? w.key with
    | ok j =>
      rw [after_of_ok h, Write.isUnder_of_ok hk h, get_of_ok hk, getKey_setKey (ht.afterAll ws)]
      by_cases hij : j = i
      · rw [if_pos hij, if_pos (decide_eq_true hij)]
      · rw [if_neg hij, if_neg (by simpa using hij), ← get_of_ok hk, ih]
    | error fault =>
      rw [after_of_error h, Write.isUnder_of_error h, ih]
      rfl

theorem get_ofList (vs : List Value) {k : Value} {i : Key} (hk : Key.ofValue? k = .ok i) :
    (ofList vs).get k = givenValue vs k := by
  unfold givenValue
  cases hd : k.denoted? with
  | some n =>
    have hn := Key.ofValue?_integer_iff.mpr hd
    rw [get_of_ok hn, getKey_integer, getInteger_ofList]
    show _ = if 1 ≤ n.toInt ∧ n.toInt ≤ vs.length then vs.getD (n.toInt.toNat - 1) .nil else .nil
    by_cases h₁ : 1 ≤ n.toInt
    · rw [if_pos h₁]
      by_cases h₂ : n.toInt ≤ vs.length
      · rw [if_pos ⟨h₁, h₂⟩, List.getD_eq_getElem?_getD]
      · rw [if_neg fun h => h₂ h.2, List.getElem?_eq_none (by omega)]
        rfl
    · rw [if_neg h₁, if_neg fun h => h₁ h.1]
  | none =>
    have hother : ∀ n, i ≠ .integer n := by
      intro n e
      subst e
      rw [Key.ofValue?_integer_iff, hd] at hk
      cases hk
    rw [get_of_ok hk, getKey_eq_find _ hother]
    exact Entries.find_empty i

end Table

/-- **A table is a finite map from keys to the values last written.** -/
theorem finite_map (vs : List Value) (ws : List Write) :
    ({} : Table) = Table.ofList [] ∧
    (∀ k, k ≠ .nil → (∀ x, k = .number x → x.isNaN = false) →
      ((Table.ofList vs).afterAll ws).get k = match lastWrite? ws k with
        | some w => w.value
        | none => givenValue vs k) ∧
    (∀ k, k = .nil ∨ (∃ x, k = .number x ∧ x.isNaN = true) →
      ((Table.ofList vs).afterAll ws).get k = .nil ∧
      ∀ v, (∃ fault, ((Table.ofList vs).afterAll ws).set k v = .error fault) ∧
        (Table.ofList vs).afterAll (ws ++ [.set k v]) = (Table.ofList vs).afterAll ws) ∧
    (∀ n, ((Table.ofList vs).afterAll ws).getInteger n
      = ((Table.ofList vs).afterAll ws).get (.integer n)) ∧
    ∀ s, ((Table.ofList vs).afterAll ws).getString s
      = ((Table.ofList vs).afterAll ws).get (.string s) := by
  refine ⟨rfl, fun k hnil hnan => ?_, fun k hk => ?_, fun _ => rfl, fun _ => rfl⟩
  · cases hk : Key.ofValue? k with
    | ok i => rw [Table.get_afterAll (Table.WellFormed.ofList vs) hk, Table.get_ofList vs hk]
    | error fault =>
      have hno := Key.ofValue?_error_iff.mp ⟨fault, hk⟩
      rcases hno with h | ⟨x, h, hx⟩
      · exact absurd h hnil
      · rw [hnan x h] at hx
        cases hx
  · obtain ⟨fault, hfault⟩ := Key.ofValue?_error_iff.mpr hk
    refine ⟨Table.get_of_error hfault, fun v => ⟨⟨fault, Table.set_of_error hfault⟩, ?_⟩⟩
    rw [Table.afterAll_concat]
    exact Table.after_of_error (w := .set k v) hfault _

/-- the second value of two is overwritten, then the first cleared: an array that shrinks -/
theorem finite_map_shrunk :
    ((Table.ofList [.boolean true, .boolean false]).afterAll
      [.setInteger 2 .nil, .set (.integer 1) .nil, .setString "x" (.integer 7)]).get (.integer 1)
      = .nil ∧
    (({} : Table).afterAll [.set (.integer 2) (.boolean true), .setInteger 1 (.integer 5)]).get
      (.integer 2) = .boolean true :=
  ⟨(finite_map [.boolean true, .boolean false]
      [.setInteger 2 .nil, .set (.integer 1) .nil, .setString "x" (.integer 7)]).2.1
      (.integer 1) nofun nofun,
    (finite_map [] [.set (.integer 2) (.boolean true), .setInteger 1 (.integer 5)]).2.1
      (.integer 2) nofun nofun⟩

end ScriptTables
