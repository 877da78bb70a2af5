import Mathlib.Algebra.Group.Int.Defs
import Mathlib.Algebra.Group.Nat.Defs
import Mathlib.Data.List.Nodup
import ScriptTables.Table.Lemmas

/-!
# The border of a well-formed table

The array and the entries share no key, and neither keeps `nil` where it would count.  So the length
of the array is a border, and the two together hold as many keys as they have places that count.

* `Table.WellFormed.at_border`, `behind_border`   the border is one;
* `Table.border_setInteger_of_lt`, `border_setInteger_nil`, `WellFormed.border_setInteger_next`,
  `border_setInteger_last`                        the border after a write;
* `Table.filledSlots`                             the keys whose values are in the array;
* `Table.WellFormed.exists_keys`                  how many keys there are;
* `Table.WellFormed.border_eq`                    the border of a table whose keys leave no choice.
-/

namespace ScriptTables

namespace Table

variable {t : Table}

/-! ## the border -/

theorem getInteger_border (h : t.WellFormed) {n : Int64} (hn : n.toInt = t.border)
    (hpos : 0 < t.border) : t.getInteger n ≠ .nil := by
  have hsize : t.border = t.array.size := rfl
  have hlast : t.array.size - 1 < t.array.size := by omega
  rw [getInteger_of_le (by omega) (by omega), show n.toInt.toNat - 1 = t.array.size - 1 by omega,
    Array.getD_eq_getD_getElem?, Array.getElem?_eq_getElem hlast]
  intro e
  have hback := h.back_ne_nil
  rw [Array.back?_eq_getElem?, Array.getElem?_eq_getElem hlast] at hback
  exact hback (congrArg some e)

theorem WellFormed.at_border (h : t.WellFormed) {n : Int64} (hn : n.toInt = t.border) :
    n = 0 ∨ t.getInteger n ≠ .nil := by
  by_cases hpos : 0 < t.border
  · exact Or.inr (getInteger_border h hn hpos)
  · refine Or.inl (Int64.toInt_inj.mp ?_)
    show n.toInt = 0
    omega

theorem WellFormed.behind_border (h : t.WellFormed) {n : Int64} (hn : n.toInt = t.border + 1) :
    t.getInteger n = .nil := by
  rw [getInteger_of_not_le (by omega)]
  exact find_of_none (h.no_near_entry n (by omega) (by omega))

/-- where the keys above zero leave no choice, the border is the last of them -/
theorem WellFormed.border_eq (h : t.WellFormed) {n m : Int64} (hn : n.toInt = t.border)
    (hm : 0 ≤ m.toInt)
    (hkeys : ∀ k : Int64, 1 ≤ k.toInt → (t.getInteger k ≠ .nil ↔ k.toInt ≤ m.toInt)) : n = m := by
  refine Int64.toInt_inj.mp ?_
  have hle : n.toInt ≤ m.toInt := by
    by_cases hpos : 0 < t.border
    · exact (hkeys n (by omega)).mp (getInteger_border h hn hpos)
    · omega
  have hge : m.toInt ≤ n.toInt := by
    by_contra hlt
    -- the integer behind the border is at most `m`, so it fits
    have hlast := m.toInt_lt
    have hnext : (Int64.ofInt (n.toInt + 1)).toInt = n.toInt + 1 :=
      Int64.toInt_ofInt_of_le (by omega) (by omega)
    have hnil := h.behind_border (n := Int64.ofInt (n.toInt + 1)) (by omega)
    exact (hkeys _ (by omega)).mpr (by omega) hnil
  omega

/-! ## the border after a write -/

/-- Clearing a place in front of the last one leaves the array as long as it was, so not even `nil`
lowers the border there. -/
theorem border_setInteger_of_lt {n : Int64} (hlow : 1 ≤ n.toInt) (hn : n.toInt < t.border)
    (v : Value) : (t.setInteger n v).border = t.border := by
  have hsize : t.border = t.array.size := rfl
  rcases setInteger_cases t n v with h | h | h
  · have hinner : ¬(v.isNil = true ∧ n.toInt.toNat - 1 + 1 = t.array.size) := by omega
    rw [h.2.2]
    show (writeSlot t.array (n.toInt.toNat - 1) v).size = _
    rw [writeSlot, if_neg hinner, Array.size_setIfInBounds]
    rfl
  · omega
  · omega

theorem border_setInteger_nil {n : Int64} (hn : ¬(1 ≤ n.toInt ∧ n.toInt ≤ t.border)) :
    (t.setInteger n .nil).border = t.border := by
  rcases setInteger_cases t n .nil with h | h | h
  · exact absurd ⟨h.1, h.2.1⟩ hn
  · exact absurd rfl h.2.1
  · rw [h.2.2]
    rfl

theorem migrate_of_nextEntry? (h : t.nextEntry? = none) (n : Nat) : migrate n t = t := by
  cases n with
  | zero => rfl
  | succ n => exact migrate_of_none h n

/-- a value right behind the border raises it by one when no value follows -/
theorem WellFormed.border_setInteger_next (h : t.WellFormed) {n next : Int64}
    (hn : n.toInt = t.border + 1) (hnext : next.toInt = t.border + 2)
    (hempty : t.getInteger next = .nil) {v : Value} (hv : v ≠ .nil) :
    (t.setInteger n v).border = t.border + 1 := by
  have hpushed := border_pushed t v
  have hstop : Table.nextEntry? (t.pushed v) = none := by
    cases hfound : Table.nextEntry? (t.pushed v) with
    | none => rfl
    | some p =>
      obtain ⟨m, _, hm, hentry⟩ := nextEntry?_eq_some (k := p.1) (v := p.2) hfound
      have hnext : m = next := Int64.toInt_inj.mp (by omega)
      rw [hnext] at hentry
      rw [getInteger_of_not_le (by omega), Entries.find] at hempty
      have hnil : t.entries[Key.integer next]? = some .nil := by
        have hentry : t.entries[Key.integer next]? = some p.2 := hentry
        rw [hentry] at hempty ⊢
        exact congrArg some hempty
      exact absurd hnil (h.entry_ne_nil _)
  rcases setInteger_cases t n v with hw | hw | hw
  · omega
  · rw [hw.2.2, append_eq, migrate_of_nextEntry? hstop, hpushed]
  · exact absurd ⟨hn, hv⟩ hw.2.1

theorem dropTrailingNils_of_back? {a : Array Value} (h : a.back? ≠ some .nil) :
    dropTrailingNils a = a := by
  rw [dropTrailingNils]
  cases a.size with
  | zero => rfl
  | succ n => rw [popNils_succ, if_neg h]

theorem border_setInteger_last {n previous : Int64} (hn : n.toInt = t.border) (hlow : 1 ≤ n.toInt)
    (hprevious : previous.toInt + 1 = t.border)
    (hfilled : 1 ≤ previous.toInt → t.getInteger previous ≠ .nil) :
    (t.setInteger n .nil).border + 1 = t.border := by
  have hsize : t.border = t.array.size := rfl
  have hback : t.array.pop.back? ≠ some .nil := by
    rw [Array.back?_eq_getElem?, Array.getElem?_pop, Array.size_pop]
    by_cases hone : 1 ≤ previous.toInt
    · have hvalue := hfilled hone
      have hslot : previous.toInt.toNat - 1 = t.array.size - 1 - 1 := by omega
      rw [getInteger_of_le hone (by omega), hslot, Array.getD_eq_getD_getElem?] at hvalue
      rw [if_pos (by omega)]
      intro hnil
      rw [hnil] at hvalue
      exact hvalue rfl
    · rw [if_neg (by omega)]
      exact nofun
  rcases setInteger_cases t n .nil with h | h | h
  · have hlast : Value.nil.isNil = true ∧ n.toInt.toNat - 1 + 1 = t.array.size := ⟨rfl, by omega⟩
    rw [h.2.2]
    show (writeSlot t.array (n.toInt.toNat - 1) .nil).size + 1 = _
    rw [writeSlot, if_pos hlast, dropTrailingNils_of_back? hback, Array.size_pop]
    omega
  · omega
  · exact absurd ⟨hlow, by omega⟩ h.1

/-! ## counting keys -/

/-- the keys whose values are in the array and are not `nil` -/
def filledSlots (t : Table) : List Key :=
  ((List.range t.border).filter fun i => !(t.array.getD i .nil).isNil).map
    fun (i : Nat) => Key.integer (Int64.ofInt ((i : Int) + 1))

theorem elements_eq (t : Table) :
    t.elements = (List.range t.border).map fun i => t.array.getD i .nil := by
  refine List.ext_getElem ?_ fun i h₁ h₂ => ?_
  · rw [List.length_map, List.length_range]
    rfl
  · have hi : i < t.array.size := h₁
    rw [List.getElem_map, List.getElem_range, Array.getD_eq_getD_getElem?,
      Array.getElem?_eq_getElem hi]
    rfl

theorem length_filledSlots (t : Table) :
    t.filledSlots.length = t.elements.countP fun v => !v.isNil := by
  rw [filledSlots, List.length_map, elements_eq, List.countP_map, List.countP_eq_length_filter]
  rfl

theorem toInt_slot {i : Nat} (hi : i < t.border) (hfits : t.border < 2 ^ 63) :
    (Int64.ofInt ((i : Int) + 1)).toInt = i + 1 :=
  Int64.toInt_ofInt_of_le (by omega) (by omega)

theorem nodup_filledSlots (hfits : t.border < 2 ^ 63) : t.filledSlots.Nodup := by
  refine List.Nodup.map_on ?_ (List.nodup_range.filter _)
  intro i hi j hj e
  have hi := List.mem_range.mp (List.mem_filter.mp hi).1
  have hj := List.mem_range.mp (List.mem_filter.mp hj).1
  have hij := congrArg Int64.toInt (Key.integer.inj e)
  rw [toInt_slot hi hfits, toInt_slot hj hfits] at hij
  omega

theorem mem_filledSlots (hfits : t.border < 2 ^ 63) {k : Key} :
    k ∈ t.filledSlots ↔
      ∃ n : Int64, k = .integer n ∧ 1 ≤ n.toInt ∧ n.toInt ≤ t.border ∧ t.getInteger n ≠ .nil := by
  rw [filledSlots, List.mem_map]
  constructor
  · intro h
    obtain ⟨i, hi, rfl⟩ := h
    obtain ⟨hrange, hfilled⟩ := List.mem_filter.mp hi
    have hlt := List.mem_range.mp hrange
    have hslot := toInt_slot hlt hfits
    refine ⟨_, rfl, by omega, by omega, ?_⟩
    rw [getInteger_of_le (by omega) (by omega), hslot]
    show t.array.getD i .nil ≠ .nil
    intro e
    rw [e] at hfilled
    cases hfilled
  · intro h
    obtain ⟨n, rfl, h₁, h₂, hn⟩ := h
    rw [getInteger_of_le h₁ h₂] at hn
    refine ⟨n.toInt.toNat - 1, List.mem_filter.mpr ⟨List.mem_range.mpr (by omega), ?_⟩, ?_⟩
    · rw [Value.isNil_eq_false_iff.mpr hn]
      rfl
    · refine congrArg Key.integer (Int64.toInt_inj.mp ?_)
      rw [toInt_slot (t := t) (by omega) hfits]
      omega

/-- an entry is never `nil`, so a key has one exactly when it has a value outside the array -/
theorem WellFormed.mem_keys (h : t.WellFormed) {k : Key} :
    k ∈ t.entries.keys ↔ t.entries.find k ≠ .nil := by
  rw [Std.TreeMap.mem_keys, Std.TreeMap.mem_iff_isSome_getElem?, Entries.find]
  have hne := h.entry_ne_nil k
  cases hv : t.entries[k]? with
  | none => simp
  | some v =>
    rw [hv] at hne
    have hv : v ≠ .nil := fun e => hne (congrArg some e)
    simpa using hv

theorem WellFormed.exists_keys (h : t.WellFormed) (hfits : t.border < 2 ^ 63) :
    ∃ keys : List Key, keys.Nodup ∧ (∀ k, k ∈ keys ↔ t.getKey k ≠ .nil) ∧
      keys.length = t.entryCount + t.elements.countP fun v => !v.isNil := by
  have hinner : ∀ n : Int64, 1 ≤ n.toInt → n.toInt ≤ t.border →
      Key.integer n ∉ t.entries.keys := by
    intro n h₁ h₂
    rw [h.mem_keys, find_of_none (h.no_near_entry n h₁ (by omega))]
    exact fun hne => hne rfl
  refine ⟨t.entries.keys ++ t.filledSlots, ?_, fun k => ?_, ?_⟩
  · refine List.nodup_append'.mpr ⟨Std.TreeMap.nodup_keys, nodup_filledSlots hfits, ?_⟩
    intro k hk hslot
    obtain ⟨n, rfl, h₁, h₂, _⟩ := (mem_filledSlots hfits).mp hslot
    exact hinner n h₁ h₂ hk
  · rw [List.mem_append, mem_filledSlots hfits]
    by_cases hk : ∃ n : Int64, k = .integer n ∧ 1 ≤ n.toInt ∧ n.toInt ≤ t.border
    · obtain ⟨n, rfl, h₁, h₂⟩ := hk
      rw [getKey_integer]
      constructor
      · intro hmem
        rcases hmem with hmem | ⟨m, e, _, _, hm⟩
        · exact absurd hmem (hinner n h₁ h₂)
        · rw [Key.integer.inj e]
          exact hm
      · intro hn
        exact Or.inr ⟨n, rfl, h₁, h₂, hn⟩
    · have hfind : t.getKey k = t.entries.find k := by
        cases k with
        | integer n => exact getInteger_of_not_le fun hr => hk ⟨n, rfl, hr⟩
        | _ => rfl
      rw [hfind, ← h.mem_keys]
      constructor
      · intro hmem
        rcases hmem with hmem | ⟨n, e, h₁, h₂, _⟩
        · exact hmem
        · exact absurd ⟨n, e, h₁, h₂⟩ hk
      · exact Or.inl
  · rw [List.length_append, Std.TreeMap.length_keys, length_filledSlots]
    rfl

end Table

end ScriptTables
