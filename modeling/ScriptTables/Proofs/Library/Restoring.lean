import ScriptTables.Proofs.Library.Effects
import ScriptTables.Proofs.Sort.Conserving

/-!
# Inserting and removing undo each other

Removing what was just inserted leads back to the same table, key by key, with the same border, and
so does putting back what was removed.  The second operation starts from the border that the first
one left, which need not follow from the keys: an insertion may pull what lies behind the gap into
the array, and a removal at the end drops all `nil`s in front of it.  Where neither happens the
border goes up by one and back.  No value under the key two behind the border rules out the first;
a value in front of what is removed rules out the second.

* `removed_inserted`, `inserted_removed`   the two, as maps from keys to values;
* `FilledTo id m f b`                      a table with these values and that border;
* `ends_insert`, `ends_insertNil`, `ends_remove`, `ends_removeBehind`   the operations, with the border;
* `edits_undone`                           one after the other.
-/

namespace ScriptTables

/-! ## as maps -/

theorem Key.exists_of_not_low {k : Key} (h : ¬k.Low) : ∃ n : Int64, 1 ≤ n.toInt ∧ k = .integer n := by
  by_contra hnone
  exact h fun n hn hk => hnone ⟨n, hn, hk⟩

section
variable {f : Key → Value} {b p : Int}

theorem removed_inserted (hlow : 1 ≤ p) (hhigh : p ≤ b + 1) (hfits : b + 1 < 2 ^ 63) {b' : Int}
    (hend : max p b' = b + 1) (hempty : ∀ k : Int64, k.toInt = b + 1 → f (.integer k) = .nil)
    (v : Value) (k : Key) : removed (inserted f b p v) b' p k = f k := by
  by_cases hk : k.Low
  · rw [removed_low _ hlow (by omega) (by omega) hk, inserted_low _ hlow (by omega) v hk]
  obtain ⟨k, _, rfl⟩ := Key.exists_of_not_low hk
  rw [removed_integer _ (by omega) (by omega) (by omega), hend]
  by_cases hlast : k.toInt = b + 1
  · rw [if_pos hlast, hempty k hlast]
  rw [if_neg hlast]
  by_cases hin : p ≤ k.toInt ∧ k.toInt < b + 1
  · have hnext : (Int64.ofInt (k.toInt + 1)).toInt = k.toInt + 1 :=
      Int64.toInt_ofInt_of_le (by omega) (by omega)
    rw [if_pos hin, inserted_integer _ (by omega) (by omega), hnext, if_neg (by omega),
      if_pos (by omega), Int.add_sub_cancel, Int64.ofInt_toInt]
  · rw [if_neg hin, inserted_integer _ (by omega) (by omega), if_neg (by omega), if_neg (by omega)]

theorem inserted_removed (hlow : 1 ≤ p) (hhigh : p ≤ b) (hfits : b < 2 ^ 63) (k : Key) :
    inserted (removed f b p) (b - 1) p (f (.integer (Int64.ofInt p))) k = f k := by
  have hend : max p b = b := by omega
  by_cases hk : k.Low
  · rw [inserted_low _ hlow (by omega) _ hk, removed_low _ hlow (by omega) hfits hk]
  obtain ⟨k, _, rfl⟩ := Key.exists_of_not_low hk
  rw [inserted_integer _ (by omega) (by omega), Int.sub_add_cancel]
  by_cases hplace : k.toInt = p
  · rw [if_pos hplace, ← hplace, Int64.ofInt_toInt]
  rw [if_neg hplace]
  by_cases hin : p < k.toInt ∧ k.toInt ≤ b
  · have hprevious : (Int64.ofInt (k.toInt - 1)).toInt = k.toInt - 1 :=
      Int64.toInt_ofInt_of_le (by omega) (by omega)
    rw [if_pos hin, removed_integer _ (by omega) (by omega) hfits, hprevious, hend,
      if_neg (by omega), if_pos (by omega), Int.sub_add_cancel, Int64.ofInt_toInt]
  · rw [if_neg hin, removed_integer _ (by omega) (by omega) hfits, hend, if_neg (by omega),
      if_neg (by omega)]

end

/-! ## with the border -/

/-- The values of a table are those of `f`, and its border is `b`. -/
structure FilledTo (id : TableId) (m : Machine) (f : Key → Value) (b : Nat) (t : Machine) : Prop
    extends Filled id m f t where
  border : (t.heap.table id).border = b

/-- a table is as it was, key by key, and so is its border -/
def Restored (id : TableId) (m t : Machine) : Prop :=
  FilledTo id m (m.heap.table id).getKey (m.heap.table id).border t

section
variable {id : TableId} {m t : Machine} {f : Key → Value} {b : Nat}

theorem FilledTo.start (hp : m.heap.Plain id) (hfits : (m.heap.table id).border < 2 ^ 63) :
    Restored id m m :=
  ⟨⟨OnlyTable.refl hp hfits, fun _ => rfl⟩, rfl⟩

theorem FilledTo.congr {g : Key → Value} (h : FilledTo id m f b t) (hfg : ∀ k, f k = g k) :
    FilledTo id m g b t :=
  ⟨h.toFilled.congr hfg, h.border⟩

theorem FilledTo.bordered (h : FilledTo id m f b t) : Bordered id m b t := ⟨h.toOnlyTable, h.border⟩

theorem FilledTo.behind (h : FilledTo id m f b t) {k : Int64} (hk : k.toInt = b + 1) :
    f (.integer k) = .nil := by
  have hb := h.border
  rw [← h.getKey]
  exact h.plain.wellFormed.behind_border (by omega)

theorem FilledTo.at_border (h : FilledTo id m f b t) {k : Int64} (hk : k.toInt = b)
    (hlow : 1 ≤ k.toInt) : f (.integer k) ≠ .nil := by
  have hb := h.border
  rw [← h.getKey]
  exact Table.getInteger_border h.plain.wellFormed (by omega) (by omega)

end

/-! ## the operations -/

section
variable (call : Caller) {id : TableId} {m : Machine} {f : Key → Value} {b : Nat}

theorem filledTo_get (hlinks : m.limits.maxMetaChain ≠ 0) (i : Int) :
    Ends (FilledTo id m f b) ((Collection.native id).get (Machine.host call) i)
      (fun v t => v = f (.integer (Int64.ofInt i)) ∧ FilledTo id m f b t) fun _ _ => False := by
  intro t ht
  rw [get_plain call ht.plain (by rw [ht.limits]; exact hlinks)]
  exact ⟨ht.getKey (.integer (Int64.ofInt i)), ht⟩

theorem filledTo_set (hlinks : m.limits.maxMetaChain ≠ 0) (i : Int) (v : Value) {b' : Nat}
    (hborder : ∀ t, FilledTo id m f b t →
      ((t.heap.table id).setInteger (Int64.ofInt i) v).border = b') :
    Ends (FilledTo id m f b) ((Collection.native id).set (Machine.host call) i v)
      (fun _ => FilledTo id m (Function.update f (.integer (Int64.ofInt i)) v) b')
      fun _ _ => False := by
  intro t ht
  rw [set_plain call ht.plain (by rw [ht.limits]; exact hlinks)]
  exact ⟨ht.toFilled.write _ v,
    (congrArg Table.border (Heap.table_write_self t.heap id _ v)).trans (hborder t ht)⟩

theorem filledTo_setNil (hlinks : m.limits.maxMetaChain ≠ 0) {p : Int64} (hp : p.toInt = b + 1) :
    Ends (FilledTo id m f b) ((Collection.native id).set (Machine.host call) p.toInt .nil)
      (fun _ => FilledTo id m (Function.update f (.integer (Int64.ofInt p.toInt)) .nil) b)
      fun _ _ => False := by
  refine filledTo_set call hlinks _ _ fun t ht => ?_
  have hb := ht.border
  rw [Int64.ofInt_toInt, Table.border_setInteger_nil (by omega), hb]

/-- An insertion that does not put `nil` behind the border raises it by one, when no value is under
the key that follows then. -/
theorem ends_insert (hlinks : m.limits.maxMetaChain ≠ 0) {next : Int64} (hnext : next.toInt = b + 2)
    (hempty : f (.integer next) = .nil) {p : Int64} (hlow : 1 ≤ p.toInt) (hhigh : p.toInt ≤ b + 1)
    {v : Value} (hv : v ≠ .nil ∨ p.toInt ≤ b) :
    Ends (FilledTo id m f b)
      ((Collection.native id).insertAt (Machine.host call) (Int64.ofNat b) (some p) v)
      (fun _ => FilledTo id m (inserted f b p.toInt v) (b + 1)) fun _ _ => False := by
  intro t ht
  have hlast := next.toInt_lt
  have hb := ht.border
  have hcount : (Int64.ofNat b).toInt = b := toInt_position (by omega)
  have hvalues : Ends (Filled id m f) ((Collection.native id).insertAt (Machine.host call)
      (Int64.ofNat b) (some p) v) _ _ :=
    ends_insertAt (p := p.toInt) hlinks v (by omega) rfl hlow (by rw [hcount]; exact hhigh)
      (Or.inr (by omega))
  subst hb
  have hborder : Ends _ ((Collection.native id).insertAt (Machine.host call)
      (Int64.ofNat (t.heap.table id).border) (some p) v) _ _ :=
    ends_widened call hlinks (by omega) (p := p.toInt) rfl hlow hhigh (Or.inr (by omega)) hv
  suffices hends : Ends (· = t) _ _ _ from hends t rfl
  refine (hvalues.and hborder).mono (fun s hs => ?_) (fun _ s hs => ?_) fun _ _ he => he.1
  · subst hs
    exact ⟨ht.toFilled, ht.toOnlyTable, rfl⟩
  · obtain ⟨hfilled, n, first, hn, hfirst, hbordered⟩ := hs
    rw [hcount] at hfilled
    have hraised := ht.plain.wellFormed.border_setInteger_next hn hnext
      ((ht.getKey _).trans hempty) hfirst
    exact ⟨hfilled, hbordered.border.trans hraised⟩

theorem ends_insertNil (hlinks : m.limits.maxMetaChain ≠ 0) (hfits : b + 2 < 2 ^ 63) {p : Int64}
    (hp : p.toInt = b + 1) :
    Ends (FilledTo id m f b)
      ((Collection.native id).insertAt (Machine.host call) (Int64.ofNat b) (some p) .nil)
      (fun _ => FilledTo id m (inserted f b p.toInt .nil) b) fun _ _ => False := by
  have hlast : Collection.appendPosition (Int64.ofNat b) = b + 1 := appendPosition_ofNat (by omega)
  have hnone : (Collection.appendPosition (Int64.ofNat b) - p.toInt).toNat = 0 := by omega
  have hself : movedUp f p.toInt (b + 1) = f := funext fun k => by rw [hp, movedUp_self]
  rw [Collection.insertAt_eq _ _ (p := p.toInt) rfl (by omega) (by omega) (Or.inr (by omega)), hnone,
    inserted, hself]
  exact filledTo_setNil call hlinks hp

theorem filledTo_copiesDown (hlinks : m.limits.maxMetaChain ≠ 0) (hfits : b + 1 < 2 ^ 63) {p : Int64}
    (hlow : 1 ≤ p.toInt) (hhigh : p.toInt ≤ b) :
    Ends (FilledTo id m f b)
      (Collection.copyEach (Machine.host call) (.native id) (.native id)
        (upward (p.toInt + 1) p.toInt ((b : Int) - p.toInt).toNat))
      (fun _ => FilledTo id m (movedDown f p.toInt b) b) fun _ _ => False := by
  have hsteps : p.toInt + ((b : Int) - p.toInt).toNat = b := by omega
  have hvalues : Ends (Filled id m f) (Collection.shiftDown (Machine.host call) _ _ p.toInt) _ _ :=
    ends_shiftDown hlinks _ f p.toInt p.le_toInt (by rw [hsteps]; omega)
  rw [Collection.shiftDown_eq, hsteps] at hvalues
  have hborder : Ends (Bordered id m b) (Collection.copyEach (Machine.host call) _ _
      (upward (p.toInt + 1) p.toInt ((b : Int) - p.toInt).toNat)) _ _ :=
    bordered_copyEach call hlinks fun q hq => by
      have hq := mem_upward.mp hq
      omega
  exact (hvalues.and hborder).mono (fun t ht => ⟨ht.toFilled, ht.bordered⟩)
    (fun _ t ht => ⟨ht.1, ht.2.border⟩) fun _ _ he => he.1

/-- `nil` written over the last value lowers the border by one when the one in front of it is a
value -/
theorem filledTo_clearLast (hlinks : m.limits.maxMetaChain ≠ 0) (hfits : b + 1 < 2 ^ 63)
    (hleft : ∀ k : Int64, k.toInt = b → 1 ≤ k.toInt → f (.integer k) ≠ .nil) :
    Ends (FilledTo id m f (b + 1))
      ((Collection.native id).set (Machine.host call) ((b + 1 : Nat) : Int) .nil)
      (fun _ => FilledTo id m
        (Function.update f (.integer (Int64.ofInt ((b + 1 : Nat) : Int))) .nil) b)
      fun _ _ => False := by
  have hlast : (Int64.ofInt ((b + 1 : Nat) : Int)).toInt = (b + 1 : Nat) :=
    Int64.toInt_ofInt_of_le (by omega) (by omega)
  have hprevious : (Int64.ofInt b).toInt = b := Int64.toInt_ofInt_of_le (by omega) (by omega)
  refine filledTo_set call hlinks _ _ fun t ht => ?_
  have hb := ht.border
  have hfound : 1 ≤ (Int64.ofInt b).toInt →
      (t.heap.table id).getInteger (Int64.ofInt b) ≠ .nil := by
    intro hpos
    have hfound := hleft _ hprevious hpos
    rw [← ht.getKey] at hfound
    exact hfound
  have hlowered := Table.border_setInteger_last (hlast.trans (by rw [hb])) (by omega)
    (by rw [hprevious, hb]; rfl) hfound
  omega

theorem ends_removal (hlinks : m.limits.maxMetaChain ≠ 0) (hfits : b < 2 ^ 63) {p : Int64}
    (hremovable : Collection.isRemovable (Int64.ofNat b) p = true) {g h : Key → Value} {b' : Nat}
    (hcopies : Ends (FilledTo id m f b)
      (Collection.copyEach (Machine.host call) (.native id) (.native id)
        (upward (p.toInt + 1) p.toInt ((b : Int) - p.toInt).toNat))
      (fun _ => FilledTo id m g b) fun _ _ => False)
    (hclear : Ends (FilledTo id m g b)
      ((Collection.native id).set (Machine.host call) (max p.toInt b) .nil)
      (fun _ => FilledTo id m h b') fun _ _ => False) :
    Ends (FilledTo id m f b)
      ((Collection.native id).removeAt (Machine.host call) (Int64.ofNat b) (some p))
      (fun r t => r = some (f (.integer p)) ∧ FilledTo id m h b' t) fun _ _ => False := by
  have hcount : (Int64.ofNat b).toInt = b := toInt_position hfits
  rw [Collection.removeAt_eq (p := p) _ _ rfl hremovable, hcount]
  refine Ends.bind (filledTo_get call hlinks _) fun v => ?_
  refine Ends.of_and fun hv => ?_
  rw [Int64.ofInt_toInt] at hv
  subst hv
  exact hcopies.bind fun _ => hclear.bind fun _ => Ends.pure fun t ht => ⟨rfl, ht⟩

/-- A removal lowers the border by one when what is in front of the end is a value. -/
theorem ends_remove (hlinks : m.limits.maxMetaChain ≠ 0) (hfits : b + 1 + 1 < 2 ^ 63) {p : Int64}
    (hlow : 1 ≤ p.toInt) (hhigh : p.toInt ≤ b + 1)
    (hleft : ∀ k : Int64, k.toInt = b → 1 ≤ k.toInt →
      removed f (b + 1 : Nat) p.toInt (.integer k) ≠ .nil) :
    Ends (FilledTo id m f (b + 1))
      ((Collection.native id).removeAt (Machine.host call) (Int64.ofNat (b + 1)) (some p))
      (fun r t => r = some (f (.integer p)) ∧ FilledTo id m (removed f (b + 1 : Nat) p.toInt) b t)
      fun _ _ => False := by
  have hcount : (Int64.ofNat (b + 1)).toInt = (b + 1 : Nat) := toInt_position (by omega)
  have hremovable : Collection.isRemovable (Int64.ofNat (b + 1)) p = true :=
    (isRemovable_iff (by omega)).mpr (Or.inr ⟨hlow, by omega⟩)
  have hend : max p.toInt ((b + 1 : Nat) : Int) = (b + 1 : Nat) := by omega
  rw [removed, hend] at hleft ⊢
  refine ends_removal call hlinks (by omega) hremovable
    (filledTo_copiesDown call hlinks (by omega) hlow (by omega)) ?_
  rw [hend]
  refine filledTo_clearLast call hlinks (by omega) fun k hk hpos => ?_
  have hfound := hleft k hk hpos
  rwa [update_integer _ (by omega) (by omega), if_neg (by omega)] at hfound

theorem ends_removeBehind (hlinks : m.limits.maxMetaChain ≠ 0) (hfits : b + 1 < 2 ^ 63) {p : Int64}
    (hp : p.toInt = b + 1) :
    Ends (FilledTo id m f b)
      ((Collection.native id).removeAt (Machine.host call) (Int64.ofNat b) (some p))
      (fun r t => r = some (f (.integer p)) ∧ FilledTo id m (removed f b p.toInt) b t)
      fun _ _ => False := by
  have hcount : (Int64.ofNat b).toInt = b := toInt_position (by omega)
  have hremovable : Collection.isRemovable (Int64.ofNat b) p = true :=
    (isRemovable_iff (by omega)).mpr (Or.inr ⟨by omega, by omega⟩)
  have hnone : ((b : Int) - p.toInt).toNat = 0 := by omega
  have hend : max p.toInt (b : Int) = p.toInt := by omega
  have hself : movedDown f p.toInt p.toInt = f := funext fun k => movedDown_self f _ k
  rw [removed, hend, hself]
  refine ends_removal call hlinks (by omega) hremovable (g := f) ?_ ?_
  · rw [hnone]
    exact Ends.pure fun _ ht => ht
  · rw [hend]
    exact filledTo_setNil call hlinks hp

end

/-! ## one after the other -/

section
variable (call : Caller) {id : TableId} {m : Machine}

theorem FilledTo.insert_run {f : Key → Value} {b : Nat} {t : Machine} (h : FilledTo id m f b t)
    (p : Int64) (v : Value) :
    ((Machine.host call).insert (.table id) (some p) v).run t
      = ((Collection.native id).insertAt (Machine.host call) (Int64.ofNat b) (some p) v).run t := by
  rw [ScriptTables.insert_run, h.border]

theorem FilledTo.remove_run {f : Key → Value} {b : Nat} {t : Machine} (h : FilledTo id m f b t)
    (p : Int64) :
    ((Machine.host call).remove (.table id) (some p)).run t
      = ((Collection.native id).removeAt (Machine.host call) (Int64.ofNat b) (some p)).run t := by
  rw [ScriptTables.remove_run, h.border]

/-- a removal returns what was inserted and leads back -/
theorem undone_insert (hlinks : m.limits.maxMetaChain ≠ 0) (hstart : Restored id m m) {next : Int64}
    (hnext : next.toInt = (m.heap.table id).border + 2)
    (hempty : (m.heap.table id).getInteger next = .nil) (v : Value) {p : Int64} (hlow : 1 ≤ p.toInt)
    (hhigh : p.toInt ≤ (m.heap.table id).border + 1) :
    ∃ t t', ((Machine.host call).insert (.table id) (some p) v).run m = .ok () t ∧
      ((Machine.host call).remove (.table id) (some p)).run t = .ok (some v) t' ∧
      Restored id m t' := by
  have hlast := next.toInt_lt
  have hbehind : ∀ k : Int64, k.toInt = (m.heap.table id).border + 1 → _ :=
    fun k hk => hstart.behind hk
  have hfound : inserted (m.heap.table id).getKey (m.heap.table id).border p.toInt v (.integer p)
      = v := by
    rw [inserted_integer _ (by omega) p.toInt_lt, if_pos rfl]
  by_cases hv : v ≠ .nil ∨ p.toInt ≤ (m.heap.table id).border
  · obtain ⟨_, t, hrun, ht⟩ := (ends_insert call hlinks hnext hempty hlow hhigh hv).exists_ok hstart
    have hend : max p.toInt (((m.heap.table id).border + 1 : Nat) : Int)
        = (m.heap.table id).border + 1 := by omega
    have hback := removed_inserted hlow hhigh (by omega) hend hbehind v
    obtain ⟨r, t', hrun', hr, ht'⟩ := (ends_remove call hlinks (by omega) hlow hhigh
      fun k hk hpos => by rw [hback]; exact hstart.at_border hk hpos).exists_ok ht
    refine ⟨t, t', (hstart.insert_run call p v).trans hrun, ?_, ht'.congr hback⟩
    rw [ht.remove_run, hrun', hr, hfound]
  -- `nil` behind the border
  · rw [not_or, not_not] at hv
    obtain ⟨rfl, hp⟩ := hv
    have hp : p.toInt = (m.heap.table id).border + 1 := by omega
    obtain ⟨_, t, hrun, ht⟩ := (ends_insertNil call hlinks (by omega) hp).exists_ok hstart
    have hend : max p.toInt ((m.heap.table id).border : Int) = (m.heap.table id).border + 1 := by omega
    have hback := removed_inserted hlow hhigh (by omega) hend hbehind .nil
    obtain ⟨r, t', hrun', hr, ht'⟩ := (ends_removeBehind call hlinks (by omega) hp).exists_ok ht
    refine ⟨t, t', (hstart.insert_run call p .nil).trans hrun, ?_, ht'.congr hback⟩
    rw [ht.remove_run, hrun', hr, hfound]

theorem undone_remove (hlinks : m.limits.maxMetaChain ≠ 0) (hstart : Restored id m m)
    (hfits : (m.heap.table id).border + 1 < 2 ^ 63)
    (hfilled : ∀ k : Int64, 1 ≤ k.toInt → k.toInt ≤ (m.heap.table id).border →
      (m.heap.table id).getInteger k ≠ .nil) {p : Int64} (hlow : 1 ≤ p.toInt)
    (hhigh : p.toInt ≤ (m.heap.table id).border) :
    ∃ t t', ((Machine.host call).remove (.table id) (some p)).run m
        = .ok (some ((m.heap.table id).getInteger p)) t ∧
      ((Machine.host call).insert (.table id) (some p) ((m.heap.table id).getInteger p)).run t
        = .ok () t' ∧
      Restored id m t' := by
  obtain ⟨b, hb⟩ : ∃ b, (m.heap.table id).border = b + 1 :=
    ⟨_, (Nat.sub_add_cancel (by omega)).symm⟩
  have hfull : FilledTo id m (m.heap.table id).getKey (b + 1) m := hb ▸ hstart
  have hread : ∀ k : Int64, removed (m.heap.table id).getKey (b + 1 : Nat) p.toInt (.integer k) = _ :=
    removed_integer _ (by omega) p.toInt_lt (by omega)
  -- in front of the end is the value that was at the border, or the one in front of that
  have hleft : ∀ k : Int64, k.toInt = b → 1 ≤ k.toInt →
      removed (m.heap.table id).getKey (b + 1 : Nat) p.toInt (.integer k) ≠ .nil := by
    intro k hk hpos
    have hnext : (Int64.ofInt (k.toInt + 1)).toInt = k.toInt + 1 :=
      Int64.toInt_ofInt_of_le (by omega) (by omega)
    rw [hread, if_neg (by omega)]
    split
    · exact hfilled _ (by omega) (by omega)
    · exact hfilled k hpos (by omega)
  obtain ⟨r, t, hrun, hr, ht⟩ :=
    (ends_remove call hlinks (by omega) hlow (by omega) hleft).exists_ok hfull
  have hnext : (Int64.ofInt (b + 2)).toInt = b + 2 := Int64.toInt_ofInt_of_le (by omega) (by omega)
  have hempty : removed (m.heap.table id).getKey (b + 1 : Nat) p.toInt
      (.integer (Int64.ofInt (b + 2))) = .nil := by
    rw [hread, if_neg (by omega), if_neg (by omega)]
    exact hstart.behind (by omega)
  obtain ⟨_, t', hrun', ht'⟩ := (ends_insert call hlinks hnext hempty hlow (by omega)
    (Or.inl (hfilled p hlow hhigh))).exists_ok ht
  have hback := inserted_removed (f := (m.heap.table id).getKey) (b := (b + 1 : Nat)) hlow
    (by omega) (by omega)
  have hless : ((b + 1 : Nat) : Int) - 1 = b := by omega
  rw [hless, Int64.ofInt_toInt] at hback
  refine ⟨t, t', ?_, (ht.insert_run call p _).trans hrun', ?_⟩
  · rw [hfull.remove_run, hrun, hr]
    rfl
  · rw [Restored, hb]
    exact ht'.congr hback

end

/-- **Inserting and removing at the same position undo each other.**  On a table without hooks whose
key two behind the border has no value, whatever is inserted at a position of
`1, ..., border + 1` is what a removal at that position returns, and then every key and the border
are as they were: with gaps in the table, with values further behind, and also when `nil` was
inserted.  Where the table has no gaps, an element that was removed can be put back with the same
effect. -/
theorem edits_undone (call : Caller) {m : Machine} {id : TableId} (hp : m.heap.Plain id)
    (hlinks : m.limits.maxMetaChain ≠ 0) {next : Int64}
    (hnext : next.toInt = (m.heap.table id).border + 2)
    (hempty : (m.heap.table id).getInteger next = .nil) :
    (∀ (v : Value) (p : Int64), 1 ≤ p.toInt → p.toInt ≤ (m.heap.table id).border + 1 →
      ∃ t t', ((Machine.host call).insert (.table id) (some p) v).run m = .ok () t ∧
        ((Machine.host call).remove (.table id) (some p)).run t = .ok (some v) t' ∧
        Restored id m t') ∧
    ((∀ k : Int64, 1 ≤ k.toInt → k.toInt ≤ (m.heap.table id).border →
        (m.heap.table id).getInteger k ≠ .nil) →
      ∀ p : Int64, 1 ≤ p.toInt → p.toInt ≤ (m.heap.table id).border →
        ∃ t t', ((Machine.host call).remove (.table id) (some p)).run m
            = .ok (some ((m.heap.table id).getInteger p)) t ∧
          ((Machine.host call).insert (.table id) (some p) ((m.heap.table id).getInteger p)).run t
            = .ok () t' ∧
          Restored id m t') := by
  have hlast := next.toInt_lt
  have hstart : Restored id m m := FilledTo.start hp (by omega)
  exact ⟨fun v p => undone_insert call hlinks hstart hnext hempty v,
    fun hfilled p => undone_remove call hlinks hstart (by omega) hfilled⟩

/-- `nil` put into a list with a gap and taken out again, and the first of two elements taken out and
put back -/
theorem edits_undone_holed :
    holed.heap.Plain ⟨0⟩ ∧ holed.limits.maxMetaChain ≠ 0 ∧
    (5 : Int64).toInt = (holed.heap.table ⟨0⟩).border + 2 ∧
    (holed.heap.table ⟨0⟩).getInteger 5 = .nil ∧
    (∃ t t', ((Machine.host EvalM.call).insert (.table ⟨0⟩) (some 2) .nil).run holed = .ok () t ∧
      ((Machine.host EvalM.call).remove (.table ⟨0⟩) (some 2)).run t = .ok (some .nil) t' ∧
      Restored ⟨0⟩ holed t') ∧
    ∃ t t', ((Machine.host EvalM.call).remove (.table ⟨0⟩) (some 1)).run paired
        = .ok (some ((paired.heap.table ⟨0⟩).getInteger 1)) t ∧
      ((Machine.host EvalM.call).insert (.table ⟨0⟩) (some 1)
        ((paired.heap.table ⟨0⟩).getInteger 1)).run t = .ok () t' ∧
      Restored ⟨0⟩ paired t' := by
  have hlinks : holed.limits.maxMetaChain ≠ 0 := by decide
  have hborder : (holed.heap.table ⟨0⟩).border = 3 := by decide
  have hnext : (5 : Int64).toInt = (holed.heap.table ⟨0⟩).border + 2 := by rw [hborder]; rfl
  have hempty : (holed.heap.table ⟨0⟩).getInteger 5 = .nil := by rfl
  have hplain : paired.heap.Plain ⟨0⟩ := ⟨Table.WellFormed.ofList _, rfl, rfl⟩
  have hpair : (paired.heap.table ⟨0⟩).border = 2 := by decide
  have hafter : (4 : Int64).toInt = (paired.heap.table ⟨0⟩).border + 2 := by rw [hpair]; rfl
  have hundone := (edits_undone EvalM.call hplain (by decide) hafter rfl).2
  have hfilled : ∀ k : Int64, 1 ≤ k.toInt → k.toInt ≤ (paired.heap.table ⟨0⟩).border →
      (paired.heap.table ⟨0⟩).getInteger k ≠ .nil := by
    intro k hlow hhigh
    have hk : k = 1 ∨ k = 2 := by
      rw [← Int64.toInt_inj, ← Int64.toInt_inj]
      show k.toInt = 1 ∨ k.toInt = 2
      omega
    rcases hk with rfl | rfl <;> exact nofun
  exact ⟨plain_holed, hlinks, hnext, hempty,
    (edits_undone EvalM.call plain_holed hlinks hnext hempty).1 .nil 2 (by decide)
      (by rw [hborder]; decide),
    hundone hfilled 1 (by decide) (by rw [hpair]; decide)⟩

end ScriptTables
