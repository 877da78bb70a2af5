import ScriptTables.Table.Basic

/-!
# A table is a finite map

Seen through `Table.getKey` a table is a map from keys to values: a write changes the value under its
key and no other, wherever the values are kept.  This needs that the array does not end in `nil` and
that no entry has its place in the array or right behind it.

* `Table.WellFormed`            what is kept true of a table;
* `Table.getKey_setKey`         a write, as seen through the map;
* `Table.WellFormed.setKey`     a write keeps it true;
* `Table.WellFormed.ofList`     it is true of a table of given values.
-/

namespace ScriptTables

/-! ## arrays that end in nil -/

theorem getD_pop (a : Array Value) (h : a.back? = some .nil) (i : Nat) :
    a.pop.getD i .nil = a.getD i .nil := by
  simp only [Array.getD_eq_getD_getElem?, Array.getElem?_pop]
  split
  · rfl
  · next hi =>
    by_cases hlast : i = a.size - 1
    · rw [hlast, ← Array.back?_eq_getElem?, h]; rfl
    · rw [Array.getElem?_eq_none (by omega)]

theorem getD_popNils (n : Nat) (a : Array Value) (i : Nat) :
    (popNils n a).getD i .nil = a.getD i .nil := by
  induction n generalizing a with
  | zero => rfl
  | succ n ih =>
    rw [popNils_succ]
    split
    · next h => rw [ih, getD_pop a h]
    · rfl

theorem size_popNils_le (n : Nat) (a : Array Value) : (popNils n a).size ≤ a.size := by
  induction n generalizing a with
  | zero => exact Nat.le_refl _
  | succ n ih =>
    rw [popNils_succ]
    split
    · exact Nat.le_trans (ih _) (by simp)
    · exact Nat.le_refl _

theorem back?_popNils {n : Nat} {a : Array Value} (h : a.size ≤ n) :
    (popNils n a).back? ≠ some .nil := by
  induction n generalizing a with
  | zero =>
    have ha : a = #[] := Array.eq_empty_of_size_eq_zero (Nat.le_zero.mp h)
    rw [ha]; decide
  | succ n ih =>
    rw [popNils_succ]
    split
    · exact ih (by rw [Array.size_pop]; omega)
    · next hb => exact hb

theorem getD_dropTrailingNils (a : Array Value) (i : Nat) :
    (dropTrailingNils a).getD i .nil = a.getD i .nil := getD_popNils _ a i

theorem size_dropTrailingNils_le (a : Array Value) : (dropTrailingNils a).size ≤ a.size :=
  size_popNils_le _ a

theorem back?_dropTrailingNils (a : Array Value) : (dropTrailingNils a).back? ≠ some .nil :=
  back?_popNils (Nat.le_refl _)

theorem getD_writeSlot {a : Array Value} {i : Nat} (h : i < a.size) (v : Value) (j : Nat) :
    (writeSlot a i v).getD j .nil = if i = j then v else a.getD j .nil := by
  unfold writeSlot
  split
  · next hv =>
    rw [getD_dropTrailingNils, Value.isNil_iff.mp hv.1]
    simp only [Array.getD_eq_getD_getElem?, Array.getElem?_pop]
    by_cases hij : i = j
    · rw [if_pos hij, if_neg (by omega)]; rfl
    · rw [if_neg hij]
      split
      · rfl
      · rw [Array.getElem?_eq_none (by omega)]
  · simp only [Array.getD_eq_getD_getElem?, Array.getElem?_setIfInBounds]
    by_cases hij : i = j
    · subst hij; simp [h]
    · rw [if_neg hij, if_neg hij]

theorem size_writeSlot_le (a : Array Value) (i : Nat) (v : Value) :
    (writeSlot a i v).size ≤ a.size := by
  unfold writeSlot
  split
  · exact Nat.le_trans (size_dropTrailingNils_le _) (by simp)
  · simp

theorem back?_writeSlot {a : Array Value} {i : Nat} (hi : i < a.size)
    (h : a.back? ≠ some .nil) (v : Value) : (writeSlot a i v).back? ≠ some .nil := by
  unfold writeSlot
  split
  · exact back?_dropTrailingNils _
  · next hv =>
    rw [Array.back?_eq_getElem?] at h ⊢
    rw [Array.size_setIfInBounds, Array.getElem?_setIfInBounds]
    split
    · next hlast =>
      have hn : v ≠ .nil := fun e => hv ⟨Value.isNil_iff.mpr e, by omega⟩
      exact fun e => hn (Option.some.inj e)
    · exact h

/-! ## well-formed tables -/

namespace Table

/-- what is kept true of a table -/
structure WellFormed (t : Table) : Prop where
  /-- the array does not end in `nil` -/
  back_ne_nil : t.array.back? ≠ some .nil
  /-- no entry holds `nil` -/
  entry_ne_nil : ∀ k : Key, t.entries[k]? ≠ some .nil
  /-- no entry has its place in the array, or right behind it -/
  no_near_entry : ∀ n : Int64, 1 ≤ n.toInt → n.toInt ≤ t.border + 1 →
    t.entries[Key.integer n]? = none
  /-- every entry is under a key that some value names -/
  entry_normal : ∀ k : Key, t.entries[k]? ≠ none → k.IsNormal

theorem getKey_eq_find (t : Table) {k : Key} (h : ∀ n, k ≠ .integer n) :
    t.getKey k = t.entries.find k := by
  cases k with
  | integer n => exact absurd rfl (h n)
  | _ => rfl

theorem find_of_none {m : Entries} {k : Key} (h : m[k]? = none) : m.find k = .nil := by
  rw [Entries.find, h]; rfl

/-! ### appending -/

theorem nextEntry?_eq_some {t : Table} {k : Key} {v : Value} (h : t.nextEntry? = some (k, v)) :
    ∃ n : Int64, k = .integer n ∧ n.toInt = t.border + 1 ∧ t.entries[Key.integer n]? = some v := by
  unfold nextEntry? at h
  cases hn : int64OfInt? (t.border + 1) with
  | none => rw [hn] at h; cases h
  | some n =>
    rw [hn] at h
    cases hv : t.entries[Key.integer n]? with
    | none => simp [hv] at h
    | some w =>
      simp only [hv, Option.bind_eq_bind, Option.bind_some, Option.pure_def, Option.some.injEq,
        Prod.mk.injEq] at h
      obtain ⟨rfl, rfl⟩ := h
      exact ⟨n, rfl, (int64OfInt?_eq_some.mp hn).symm, hv⟩

theorem nextEntry?_eq_none {t : Table} (h : t.nextEntry? = none) {n : Int64}
    (hn : n.toInt = t.border + 1) : t.entries[Key.integer n]? = none := by
  unfold nextEntry? at h
  rw [int64OfInt?_eq_some.mpr hn.symm] at h
  cases hv : t.entries[Key.integer n]? with
  | none => rfl
  | some w => simp [hv] at h

/-- a table with one entry moved into the array -/
def shifted (t : Table) (n : Int64) (v : Value) : Table :=
  { t with array := t.array.push v, entries := t.entries.erase (.integer n) }

theorem border_shifted (t : Table) (n : Int64) (v : Value) :
    (t.shifted n v).border = t.border + 1 := Array.size_push v

theorem getElem?_shifted (t : Table) (n : Int64) (v : Value) (k : Key) :
    (t.shifted n v).entries[k]? = if Key.integer n = k then none else t.entries[k]? := by
  show (t.entries.erase (.integer n))[k]? = _
  simp only [Std.TreeMap.getElem?_erase, Key.compare_eq_iff]

theorem getD_shifted (t : Table) (n : Int64) (v : Value) (i : Nat) :
    (t.shifted n v).array.getD i .nil = if i = t.border then v else t.array.getD i .nil := by
  show (t.array.push v).getD i .nil = _
  rw [Array.getD_eq_getD_getElem?, Array.getElem?_push, Array.getD_eq_getD_getElem?]
  by_cases h : i = t.array.size
  · rw [if_pos h, if_pos (show i = t.border from h)]; rfl
  · rw [if_neg h, if_neg (show ¬i = t.border from h)]

theorem getKey_shifted {t : Table} {n : Int64} {v : Value} (hn : n.toInt = t.border + 1)
    (hv : t.entries[Key.integer n]? = some v) (k : Key) :
    (t.shifted n v).getKey k = t.getKey k := by
  have hfind : ∀ k : Key, k ≠ .integer n →
      (t.shifted n v).entries.find k = t.entries.find k := by
    intro k hk
    rw [Entries.find, getElem?_shifted, if_neg (Ne.symm hk), Entries.find]
  cases k with
  | integer m =>
    show (t.shifted n v).getInteger m = t.getInteger m
    have hb := border_shifted t n v
    by_cases hm : m = n
    · subst hm
      rw [getInteger_of_le (by omega) (by omega), getInteger_of_not_le (by omega), getD_shifted,
        if_pos (by omega), Entries.find, hv]
      rfl
    · have hne : m.toInt ≠ n.toInt := fun e => hm (Int64.toInt_inj.mp e)
      by_cases hr : 1 ≤ m.toInt ∧ m.toInt ≤ t.border
      · rw [getInteger_of_le hr.1 (by omega), getInteger_of_le hr.1 hr.2, getD_shifted,
          if_neg (by omega)]
      · rw [getInteger_of_not_le (by omega), getInteger_of_not_le hr]
        exact hfind _ (fun e => hm (Key.integer.inj e))
  | _ => exact hfind _ fun e => by cases e

theorem getKey_migrate (n : Nat) (t : Table) (k : Key) : (migrate n t).getKey k = t.getKey k := by
  induction n generalizing t with
  | zero => rfl
  | succ n ih =>
    cases h : t.nextEntry? with
    | none => rw [migrate_of_none h]
    | some p =>
      obtain ⟨k', v⟩ := p
      rw [migrate_of_some h]
      obtain ⟨m, rfl, hm, hv⟩ := nextEntry?_eq_some h
      exact (ih _).trans (getKey_shifted hm hv k)

/-- what is true of a table before entries move into its array -/
structure NearlyWellFormed (t : Table) : Prop where
  back_ne_nil : t.array.back? ≠ some .nil
  entry_ne_nil : ∀ k : Key, t.entries[k]? ≠ some .nil
  no_inner_entry : ∀ n : Int64, 1 ≤ n.toInt → n.toInt ≤ t.border →
    t.entries[Key.integer n]? = none
  entry_normal : ∀ k : Key, t.entries[k]? ≠ none → k.IsNormal

theorem NearlyWellFormed.wellFormed {t : Table} (h : t.NearlyWellFormed)
    (hnext : t.nextEntry? = none) : t.WellFormed where
  back_ne_nil := h.back_ne_nil
  entry_ne_nil := h.entry_ne_nil
  no_near_entry n h₁ h₂ := by
    by_cases hn : n.toInt ≤ t.border
    · exact h.no_inner_entry n h₁ hn
    · exact nextEntry?_eq_none hnext (by omega)
  entry_normal := h.entry_normal

theorem NearlyWellFormed.shifted {t : Table} (h : t.NearlyWellFormed) {n : Int64} {v : Value}
    (hn : n.toInt = t.border + 1) (hv : t.entries[Key.integer n]? = some v) :
    (t.shifted n v).NearlyWellFormed where
  back_ne_nil := by
    show (t.array.push v).back? ≠ some .nil
    rw [Array.back?_push]
    exact fun e => h.entry_ne_nil (.integer n) (Option.some.inj e ▸ hv)
  entry_ne_nil k := by
    rw [getElem?_shifted]
    split
    · exact nofun
    · exact h.entry_ne_nil k
  no_inner_entry m h₁ h₂ := by
    rw [getElem?_shifted]
    rw [border_shifted] at h₂
    split
    · rfl
    · next hne =>
      have hmn : m.toInt ≠ n.toInt := fun e => hne (by rw [Int64.toInt_inj.mp e])
      exact h.no_inner_entry m h₁ (by omega)
  entry_normal k := by
    rw [getElem?_shifted]
    split
    · exact fun e => absurd rfl e
    · exact h.entry_normal k

theorem size_shifted {t : Table} {n : Int64} {v : Value}
    (hv : t.entries[Key.integer n]? = some v) :
    (t.shifted n v).entries.size = t.entries.size - 1 := by
  have hmem : t.entries.contains (Key.integer n) = true := by
    rw [Std.TreeMap.contains_eq_isSome_getElem?, hv]; rfl
  show (t.entries.erase (Key.integer n)).size = _
  rw [Std.TreeMap.size_erase, if_pos hmem]

theorem NearlyWellFormed.migrate {n : Nat} {t : Table} (h : t.NearlyWellFormed)
    (hsize : t.entries.size ≤ n) : (migrate n t).WellFormed := by
  induction n generalizing t with
  | zero =>
    rw [migrate_zero]
    refine h.wellFormed ?_
    cases hnext : t.nextEntry? with
    | none => rfl
    | some p =>
      obtain ⟨m, _, _, hv⟩ := nextEntry?_eq_some (k := p.1) (v := p.2) hnext
      have hempty : t.entries.isEmpty = true := by
        rw [Std.TreeMap.isEmpty_eq_size_eq_zero]; simpa using hsize
      rw [Std.TreeMap.getElem?_of_isEmpty hempty] at hv
      cases hv
  | succ n ih =>
    cases hnext : t.nextEntry? with
    | none => rw [migrate_of_none hnext]; exact h.wellFormed hnext
    | some p =>
      obtain ⟨k, v⟩ := p
      rw [migrate_of_some hnext]
      obtain ⟨m, rfl, hm, hv⟩ := nextEntry?_eq_some hnext
      refine ih (h.shifted hm hv) ?_
      have hs := size_shifted hv
      show (t.shifted m v).entries.size ≤ n
      omega

/-! ### appending a value -/

/-- a table with a value behind its array, before entries follow it there -/
def pushed (t : Table) (v : Value) : Table := { t with array := t.array.push v }

theorem append_eq (t : Table) (v : Value) :
    t.append v = migrate t.entries.size (t.pushed v) := rfl

theorem border_pushed (t : Table) (v : Value) : (t.pushed v).border = t.border + 1 :=
  Array.size_push v

theorem getD_pushed (t : Table) (v : Value) (i : Nat) :
    (t.pushed v).array.getD i .nil = if i = t.border then v else t.array.getD i .nil :=
  getD_shifted t 0 v i

theorem getKey_pushed {t : Table} {n : Int64} (hn : n.toInt = t.border + 1)
    (v : Value) (k : Key) :
    (t.pushed v).getKey k = if Key.integer n = k then v else t.getKey k := by
  cases k with
  | integer m =>
    show (t.pushed v).getInteger m = if _ then v else t.getInteger m
    have hb := border_pushed t v
    by_cases hm : n = m
    · subst hm
      rw [if_pos rfl, getInteger_of_le (by omega) (by omega), getD_pushed, if_pos (by omega)]
    · have hne : n.toInt ≠ m.toInt := fun e => hm (Int64.toInt_inj.mp e)
      rw [if_neg (fun e => hm (Key.integer.inj e))]
      by_cases hr : 1 ≤ m.toInt ∧ m.toInt ≤ t.border
      · rw [getInteger_of_le hr.1 (by omega), getInteger_of_le hr.1 hr.2, getD_pushed,
          if_neg (by omega)]
      · rw [getInteger_of_not_le (by omega), getInteger_of_not_le hr]
        rfl
  | _ => rw [if_neg nofun]; rfl

theorem WellFormed.pushed {t : Table} (h : t.WellFormed) {v : Value} (hv : v ≠ .nil) :
    (t.pushed v).NearlyWellFormed where
  back_ne_nil := by
    show (t.array.push v).back? ≠ some .nil
    rw [Array.back?_push]
    exact fun e => hv (Option.some.inj e)
  entry_ne_nil := h.entry_ne_nil
  no_inner_entry n h₁ h₂ := by
    rw [border_pushed] at h₂
    exact h.no_near_entry n h₁ (by omega)
  entry_normal := h.entry_normal

/-! ### writing -/

def stored (t : Table) (k : Key) (v : Value) : Table := { t with entries := t.entries.put k v }

theorem getElem?_stored (t : Table) (k : Key) (v : Value) (k' : Key) :
    (t.stored k v).entries[k']?
      = if k = k' then (if v.isNil then none else some v) else t.entries[k']? := by
  show (t.entries.put k v)[k']? = _
  unfold Entries.put
  by_cases hv : v.isNil = true
  · rw [if_pos hv, Std.TreeMap.getElem?_erase, if_pos hv]
    simp only [Key.compare_eq_iff]
  · rw [if_neg hv, Std.TreeMap.getElem?_insert, if_neg hv]
    simp only [Key.compare_eq_iff]

theorem find_stored (t : Table) (k : Key) (v : Value) (k' : Key) :
    (t.stored k v).entries.find k' = if k = k' then v else t.entries.find k' :=
  Entries.find_put t.entries k v k'

theorem getKey_stored {t : Table} {k : Key}
    (hk : ∀ n : Int64, k = .integer n → ¬(1 ≤ n.toInt ∧ n.toInt ≤ t.border)) (v : Value)
    (k' : Key) : (t.stored k v).getKey k' = if k = k' then v else t.getKey k' := by
  cases k' with
  | integer m =>
    by_cases hr : 1 ≤ m.toInt ∧ m.toInt ≤ t.border
    · rw [if_neg (fun e => hk m e hr)]
      exact (getInteger_of_le (t := t.stored k v) hr.1 hr.2).trans
        (getInteger_of_le hr.1 hr.2).symm
    · refine (getInteger_of_not_le (t := t.stored k v) hr).trans ?_
      rw [find_stored, getKey_integer, getInteger_of_not_le hr]
  | _ => exact find_stored t k v _

theorem border_setSlot_le (t : Table) (i : Nat) (v : Value) : (t.setSlot i v).border ≤ t.border :=
  size_writeSlot_le t.array i v

theorem getKey_setSlot {t : Table} (h : t.WellFormed) {n : Int64} (h₁ : 1 ≤ n.toInt)
    (h₂ : n.toInt ≤ t.border) (v : Value) (k : Key) :
    (t.setSlot (n.toInt.toNat - 1) v).getKey k = if Key.integer n = k then v else t.getKey k := by
  have hslot : n.toInt.toNat - 1 < t.array.size := by
    have hb : t.border = t.array.size := rfl
    omega
  cases k with
  | integer m =>
    show (t.setSlot _ v).getInteger m = if _ then v else t.getInteger m
    have hb := border_setSlot_le t (n.toInt.toNat - 1) v
    have harray : ∀ i, (t.setSlot (n.toInt.toNat - 1) v).array.getD i .nil
        = if n.toInt.toNat - 1 = i then v else t.array.getD i .nil :=
      fun i => getD_writeSlot hslot v i
    by_cases hr : 1 ≤ m.toInt ∧ m.toInt ≤ t.border
    · have hread : (t.setSlot (n.toInt.toNat - 1) v).getInteger m
          = (t.setSlot (n.toInt.toNat - 1) v).array.getD (m.toInt.toNat - 1) .nil := by
        by_cases hs : m.toInt ≤ (t.setSlot (n.toInt.toNat - 1) v).border
        · exact getInteger_of_le hr.1 hs
        · rw [getInteger_of_not_le (by omega), find_of_none, Array.getD_eq_getD_getElem?,
            Array.getElem?_eq_none]
          · rfl
          · show (t.setSlot (n.toInt.toNat - 1) v).border ≤ m.toInt.toNat - 1
            omega
          · exact h.no_near_entry m hr.1 (by omega)
      rw [hread, harray, getInteger_of_le hr.1 hr.2]
      by_cases hm : n = m
      · subst hm; rw [if_pos rfl, if_pos rfl]
      · have hne : n.toInt ≠ m.toInt := fun e => hm (Int64.toInt_inj.mp e)
        rw [if_neg (by omega), if_neg (fun e => hm (Key.integer.inj e))]
    · have hm : ¬Key.integer n = Key.integer m := fun e => hr (Key.integer.inj e ▸ ⟨h₁, h₂⟩)
      rw [if_neg hm, getInteger_of_not_le (by omega), getInteger_of_not_le hr]
      rfl
  | _ => rw [if_neg nofun]; rfl

theorem WellFormed.setSlot {t : Table} (h : t.WellFormed) {i : Nat} (hi : i < t.border)
    (v : Value) : (t.setSlot i v).WellFormed where
  back_ne_nil := back?_writeSlot hi h.back_ne_nil v
  entry_ne_nil := h.entry_ne_nil
  no_near_entry n h₁ h₂ := by
    have hb := border_setSlot_le t i v
    exact h.no_near_entry n h₁ (by omega)
  entry_normal := h.entry_normal

theorem WellFormed.stored {t : Table} (h : t.WellFormed) {k : Key} (hk : k.IsNormal) {v : Value}
    (hnear : ∀ n : Int64, k = .integer n → 1 ≤ n.toInt → n.toInt ≤ t.border + 1 → v = .nil) :
    (t.stored k v).WellFormed where
  back_ne_nil := h.back_ne_nil
  entry_ne_nil k' := by
    rw [getElem?_stored]
    split
    · split
      · exact nofun
      · next hv => exact fun e => hv (Value.isNil_iff.mpr (Option.some.inj e))
    · exact h.entry_ne_nil k'
  no_near_entry n h₁ h₂ := by
    rw [getElem?_stored]
    split
    · next hkn => rw [hnear n hkn h₁ h₂]; rfl
    · exact h.no_near_entry n h₁ h₂
  entry_normal k' := by
    rw [getElem?_stored]
    split
    · next hkk => exact fun _ => hkk ▸ hk
    · exact h.entry_normal k'

/-- how a write under an integer is done: in the array, right behind it, or as an entry -/
theorem setInteger_cases (t : Table) (n : Int64) (v : Value) :
    (1 ≤ n.toInt ∧ n.toInt ≤ t.border ∧ t.setInteger n v = t.setSlot (n.toInt.toNat - 1) v) ∨
    (n.toInt = t.border + 1 ∧ v ≠ .nil ∧ t.setInteger n v = t.append v) ∨
    (¬(1 ≤ n.toInt ∧ n.toInt ≤ t.border) ∧ ¬(n.toInt = t.border + 1 ∧ v ≠ .nil) ∧
      t.setInteger n v = t.stored (.integer n) v) := by
  by_cases h : 1 ≤ n.toInt ∧ n.toInt ≤ t.border
  · refine Or.inl ⟨h.1, h.2, ?_⟩
    simp only [setInteger, slot?, if_pos h]
  · right
    have hslot : t.slot? n = none := by rw [slot?, if_neg h]
    by_cases hv : n.toInt = t.border + 1 ∧ v ≠ .nil
    · refine Or.inl ⟨hv.1, hv.2, ?_⟩
      have hc : n.toInt = t.border + 1 ∧ ¬v.isNil = true :=
        ⟨hv.1, fun e => hv.2 (Value.isNil_iff.mp e)⟩
      simp only [setInteger, hslot, if_pos hc]
    · refine Or.inr ⟨h, hv, ?_⟩
      have hc : ¬(n.toInt = t.border + 1 ∧ ¬v.isNil = true) :=
        fun e => hv ⟨e.1, fun hn => e.2 (Value.isNil_iff.mpr hn)⟩
      simp only [setInteger, hslot, if_neg hc]
      rfl

/-- **A write changes the value under its key and no other.** -/
theorem getKey_setKey {t : Table} (h : t.WellFormed) (k : Key) (v : Value) (k' : Key) :
    (t.setKey k v).getKey k' = if k = k' then v else t.getKey k' := by
  cases k with
  | integer n =>
    show (t.setInteger n v).getKey k' = _
    rcases setInteger_cases t n v with ⟨h₁, h₂, e⟩ | ⟨hn, _, e⟩ | ⟨hn, hv, e⟩
    · rw [e, getKey_setSlot h h₁ h₂]
    · rw [e, append_eq, getKey_migrate, getKey_pushed hn]
    · rw [e]
      exact getKey_stored (fun m hm => Key.integer.inj hm ▸ hn) v k'
  | boolean _ | number _ | string _ | table _ | function _ | userdata _ =>
    exact getKey_stored (fun _ e => by cases e) v k'

theorem WellFormed.setKey {t : Table} (h : t.WellFormed) {k : Key} (hk : k.IsNormal) (v : Value) :
    (t.setKey k v).WellFormed := by
  cases k with
  | integer n =>
    show (t.setInteger n v).WellFormed
    rcases setInteger_cases t n v with ⟨h₁, h₂, e⟩ | ⟨_, hv, e⟩ | ⟨hn, hv, e⟩
    · rw [e]; exact h.setSlot (by omega) v
    · rw [e, append_eq]; exact (h.pushed hv).migrate (Nat.le_refl _)
    · rw [e]
      refine h.stored (k := .integer n) trivial fun m hm h₁ h₂ => ?_
      cases hm
      by_cases hnil : v = .nil
      · exact hnil
      · exact absurd ⟨by omega, hnil⟩ hv
  | boolean _ | number _ | string _ | table _ | function _ | userdata _ =>
    exact h.stored hk (fun _ e => by cases e)

/-! ### new tables -/

theorem WellFormed.ofList (vs : List Value) : (ofList vs).WellFormed where
  back_ne_nil := back?_dropTrailingNils _
  entry_ne_nil k := by
    show (∅ : Entries)[k]? ≠ _
    simp
  no_near_entry n _ _ := by
    show (∅ : Entries)[Key.integer n]? = none
    simp
  entry_normal k := by
    show (∅ : Entries)[k]? ≠ none → _
    simp

theorem WellFormed.empty : ({} : Table).WellFormed := WellFormed.ofList []

theorem getInteger_ofList (vs : List Value) (n : Int64) :
    (ofList vs).getInteger n
      = if 1 ≤ n.toInt then (vs[n.toInt.toNat - 1]?).getD .nil else .nil := by
  have harray : ∀ i, (ofList vs).array.getD i .nil = (vs[i]?).getD .nil := by
    intro i
    show (dropTrailingNils vs.toArray).getD i .nil = _
    rw [getD_dropTrailingNils, Array.getD_eq_getD_getElem?, List.getElem?_toArray]
  have hentry : (ofList vs).entries.find (.integer n) = .nil := Entries.find_empty _
  by_cases hr : 1 ≤ n.toInt ∧ n.toInt ≤ (ofList vs).border
  · rw [getInteger_of_le hr.1 hr.2, if_pos hr.1, harray]
  · rw [getInteger_of_not_le hr, hentry]
    split
    · next h₁ =>
      rw [← harray, Array.getD_eq_getD_getElem?, Array.getElem?_eq_none]
      · rfl
      · show (ofList vs).border ≤ n.toInt.toNat - 1
        omega
    · rfl

end Table

end ScriptTables
