import ScriptTables.Proofs.Library.Sequence

/-!
# Inserting into any plain table and removing from it

The two operations on a table that need not be a sequence: it may have gaps below its border and
values behind it.  Key by key their effect is what it would be on a sequence, and so it is when the
shift of an insertion pulls entries into the array while it is still running.

The border of such a table does not follow from its keys.  That an insertion raises it is seen in
the order of the writes: the first one goes right behind the border and is not `nil`, and the others
stay in front of it, where not even a `nil` lowers the border.

* `InsertEffect`, `RemoveEffect`   what is under each key afterwards;
* `Reaches id m b`, `Bordered id m b`   the table has at least the border `b`, or that one;
* `ends_widened`, `ends_raised`    an insertion raises the border;
* `insert_effect`, `remove_effect`   the operations.
-/

namespace ScriptTables

/-! ## writes behind the border -/

namespace Table

variable {t : Table}

theorem border_migrate_le (n : Nat) : ∀ t : Table, t.border ≤ (migrate n t).border := by
  induction n with
  | zero => exact fun t => Nat.le_refl _
  | succ n ih =>
    intro t
    cases hnext : t.nextEntry? with
    | none => exact Nat.le_of_eq (congrArg border (migrate_of_none hnext n)).symm
    | some p =>
      obtain ⟨k, v⟩ := p
      rw [migrate_of_some hnext]
      have hpushed := border_pushed t v
      have hrest : (t.pushed v).border ≤ _ :=
        ih { t with array := t.array.push v, entries := t.entries.erase k }
      omega

/-- a value right behind the border raises it, perhaps by more than one -/
theorem lt_border_setInteger {n : Int64} (hn : n.toInt = t.border + 1) {v : Value} (hv : v ≠ .nil) :
    t.border < (t.setInteger n v).border := by
  rcases setInteger_cases t n v with h | h | h
  · omega
  · have hpushed := border_pushed t v
    have hrest := border_migrate_le t.entries.size (t.pushed v)
    rw [h.2.2, append_eq]
    omega
  · exact absurd ⟨hn, hv⟩ h.2.1

end Table

/-! ## how far the border reaches -/

/-- Only the values of a table changed, and its border is at least `b`. -/
structure Reaches (id : TableId) (m : Machine) (b : Nat) (t : Machine) : Prop
    extends OnlyTable id m t where
  border : b ≤ (t.heap.table id).border

/-- Only the values of a table changed, and its border is `b`. -/
structure Bordered (id : TableId) (m : Machine) (b : Nat) (t : Machine) : Prop
    extends OnlyTable id m t where
  border : (t.heap.table id).border = b

theorem appendPosition_ofNat {n : Nat} (hn : n + 1 < 2 ^ 63) :
    Collection.appendPosition (Int64.ofNat n) = n + 1 := by
  have hcount : (Int64.ofNat n).toInt = n := toInt_position (by omega)
  rw [Collection.appendPosition, toInt_succ (by omega), hcount]

section
variable (call : Caller) {id : TableId} {m : Machine} {b : Nat}

theorem bordered_get (hlinks : m.limits.maxMetaChain ≠ 0) (i : Int) :
    Ends (Bordered id m b) ((Collection.native id).get (Machine.host call) i)
      (fun _ => Bordered id m b) fun _ _ => False := by
  intro t ht
  rw [get_plain call ht.plain (by rw [ht.limits]; exact hlinks)]
  exact ht

theorem ends_write (hlinks : m.limits.maxMetaChain ≠ 0) {t : Machine} (ht : OnlyTable id m t)
    (i : Int) (v : Value) :
    Ends (· = t) ((Collection.native id).set (Machine.host call) i v)
      (fun _ => Bordered id m ((t.heap.table id).setInteger (Int64.ofInt i) v).border)
      fun _ _ => False := by
  intro t ht'
  subst ht'
  rw [set_plain call ht.plain (by rw [ht.limits]; exact hlinks)]
  exact ⟨ht.write _ v, congrArg Table.border (Heap.table_write_self t.heap id _ v)⟩

theorem bordered_set (hlinks : m.limits.maxMetaChain ≠ 0) {i : Int} (hlow : 1 ≤ i) (hhigh : i < b)
    (v : Value) :
    Ends (Bordered id m b) ((Collection.native id).set (Machine.host call) i v)
      (fun _ => Bordered id m b) fun _ _ => False := by
  intro t ht
  have hb := ht.border
  have hfits := ht.fits
  have hi : (Int64.ofInt i).toInt = i := Int64.toInt_ofInt_of_le (by omega) (by omega)
  have hsame : ((t.heap.table id).setInteger (Int64.ofInt i) v).border = _ :=
    Table.border_setInteger_of_lt (by omega) (by omega) v
  have hwrite := ends_write call hlinks ht.toOnlyTable i v
  rw [hsame, hb] at hwrite
  exact hwrite t rfl

theorem bordered_copyEach (hlinks : m.limits.maxMetaChain ≠ 0) {pairs : List (Int × Int)}
    (hpairs : ∀ p ∈ pairs, 1 ≤ p.2 ∧ p.2 < b) :
    Ends (Bordered id m b)
      (Collection.copyEach (Machine.host call) (.native id) (.native id) pairs)
      (fun _ => Bordered id m b) fun _ _ => False :=
  Collection.ends_copyEach _ (fun p _ => bordered_get call hlinks p.1) fun p hp =>
    bordered_set call hlinks (hpairs p hp).1 (hpairs p hp).2

/-- The border after an insertion is the one after its first write.  That goes right behind the
border, and is the value that was at the border, which is not `nil`, or the inserted one. -/
theorem ends_widened (hlinks : m.limits.maxMetaChain ≠ 0) {old : Table}
    (hfits : old.border + 1 < 2 ^ 63) {position : Option Int64} {p : Int}
    (hposition : position.elim (old.border + 1 : Int) Int64.toInt = p) (hlow : 1 ≤ p)
    (hhigh : p ≤ old.border + 1) (hstart : position = none ∨ p + 1 < 2 ^ 63) {v : Value}
    (hv : v ≠ .nil ∨ p ≤ old.border) :
    Ends (fun t => OnlyTable id m t ∧ t.heap.table id = old)
      ((Collection.native id).insertAt (Machine.host call) (Int64.ofNat old.border) position v)
      (fun _ t => ∃ (n : Int64) (first : Value), n.toInt = old.border + 1 ∧ first ≠ .nil ∧
        Bordered id m (old.setInteger n first).border t)
      fun _ _ => False := by
  intro t ht
  obtain ⟨ht, rfl⟩ := ht
  have hlast := appendPosition_ofNat hfits
  have hend : (Int64.ofInt ((t.heap.table id).border + 1)).toInt = (t.heap.table id).border + 1 :=
    Int64.toInt_ofInt_of_le (by omega) (by omega)
  rw [Collection.insertAt_eq _ _ (by rw [hlast, hposition]) hlow (by rw [hlast]; exact hhigh) hstart,
    hlast]
  suffices hends : Ends (· = t) _ _ _ from hends t rfl
  cases hsteps : ((t.heap.table id).border + 1 - p).toNat with
  | zero =>
    -- nothing moves
    have hp : p = (t.heap.table id).border + 1 := by omega
    subst hp
    exact (ends_write call hlinks ht _ v).mono (fun _ hs => hs)
      (fun _ s hs => ⟨_, v, hend, hv.resolve_right (by omega), hs⟩) fun _ _ he => he
  | succ n =>
    -- the value at the border moves first
    have hborder : p + n = (t.heap.table id).border := by omega
    have hnext : p + 1 + n = (t.heap.table id).border + 1 := by omega
    have hkey : (Int64.ofInt (t.heap.table id).border).toInt = (t.heap.table id).border :=
      Int64.toInt_ofInt_of_le (by omega) (by omega)
    have hfound := Table.getInteger_border ht.plain.wellFormed hkey (by omega)
    have hraised := Table.lt_border_setInteger hend hfound
    rw [upward_last, List.reverse_append, List.reverse_singleton, List.singleton_append, hborder,
      hnext]
    refine (Ends.bind ?_ fun _ => bordered_set call hlinks hlow (by omega) v).mono (fun _ hs => hs)
      (fun _ s hs => ⟨_, _, hend, hfound, hs⟩) fun _ _ he => he
    intro s hs
    subst hs
    rw [Collection.copyEach,
      run_bind_of_ok (get_plain call ht.plain (by rw [ht.limits]; exact hlinks) _)]
    refine Ends.bind (ends_write call hlinks ht _ _) (fun _ => ?_) s rfl
    refine bordered_copyEach call hlinks fun q hq => ?_
    have hq := mem_upward.mp (List.mem_reverse.mp hq)
    omega

theorem ends_raised (hlinks : m.limits.maxMetaChain ≠ 0) (hp : m.heap.Plain id)
    (hborder : (m.heap.table id).border + 1 < 2 ^ 63) {position : Option Int64} {p : Int}
    (hposition : position.elim ((m.heap.table id).border + 1 : Int) Int64.toInt = p) (hlow : 1 ≤ p)
    (hhigh : p ≤ (m.heap.table id).border + 1) (hstart : position = none ∨ p + 1 < 2 ^ 63)
    {v : Value} (hv : v ≠ .nil ∨ p ≤ (m.heap.table id).border) :
    Ends (· = m) ((Collection.native id).insertAt (Machine.host call)
        (Int64.ofNat (m.heap.table id).border) position v)
      (fun _ => Reaches id m ((m.heap.table id).border + 1)) fun _ _ => False := by
  refine (ends_widened call hlinks hborder hposition hlow hhigh hstart hv).mono (fun t ht => ?_)
    (fun _ t ht => ?_) fun _ _ he => he
  · subst ht
    exact ⟨OnlyTable.refl hp (by omega), rfl⟩
  · obtain ⟨n, first, hn, hfirst, ht⟩ := ht
    refine ⟨ht.toOnlyTable, ?_⟩
    rw [ht.border]
    exact Table.lt_border_setInteger hn hfirst

end

/-! ## the effects -/

/-- What an insertion at the place `p` makes of a table: the value is there, the values from there to
the border are one key further, and no other key changed. -/
structure InsertEffect (old new : Table) (p : Int) (v : Value) : Prop where
  place : ∀ k : Int64, k.toInt = p → new.getInteger k = v
  moved : ∀ k k' : Int64, p ≤ k.toInt → k.toInt ≤ old.border → k'.toInt = k.toInt + 1 →
    new.getInteger k' = old.getInteger k
  others : ∀ k : Key, (∀ i : Int64, p ≤ i.toInt → i.toInt ≤ old.border + 1 → k ≠ .integer i) →
    new.getKey k = old.getKey k
  border : v ≠ .nil ∨ p ≤ old.border → old.border + 1 ≤ new.border

/-- What a removal at the place `p` makes of a table: the values behind it up to the border are one key
nearer, the end of the list is cleared, and no other key changed.  The place behind the border is
empty, so clearing it changes nothing. -/
structure RemoveEffect (old new : Table) (p : Int) : Prop where
  moved : ∀ k k' : Int64, p ≤ k.toInt → k.toInt < old.border → k'.toInt = k.toInt + 1 →
    new.getInteger k = old.getInteger k'
  cleared : ∀ k : Int64, k.toInt = max p old.border → new.getInteger k = .nil
  others : ∀ k : Key, (∀ i : Int64, p ≤ i.toInt → i.toInt ≤ max p old.border → k ≠ .integer i) →
    new.getKey k = old.getKey k
  behind : p = old.border + 1 → ∀ k : Key, new.getKey k = old.getKey k

section
variable {old new : Table} {p : Int}

theorem insertEffect_of_inserted {v : Value} (hlow : 1 ≤ p) (hhigh : p ≤ old.border + 1)
    (hfits : old.border + 1 < 2 ^ 63)
    (hnew : ∀ k, new.getKey k = inserted old.getKey old.border p v k)
    (hborder : v ≠ .nil ∨ p ≤ old.border → old.border + 1 ≤ new.border) :
    InsertEffect old new p v := by
  have hread : ∀ k : Int64, new.getInteger k = if k.toInt = p then v
      else if p < k.toInt ∧ k.toInt ≤ old.border + 1
        then old.getInteger (Int64.ofInt (k.toInt - 1))
      else old.getInteger k := by
    intro k
    rw [← Table.getKey_integer, hnew, inserted_integer _ (by omega) (by omega)]
    rfl
  refine ⟨fun k hk => ?_, fun k k' hlow' hhigh' hk => ?_, fun k hk => ?_, hborder⟩
  · rw [hread, if_pos hk]
  · have hprev : Int64.ofInt (k'.toInt - 1) = k := by
      rw [hk, Int.add_sub_cancel, Int64.ofInt_toInt]
    rw [hread, if_neg (by omega), if_pos ⟨by omega, by omega⟩, hprev]
  · cases k with
    | integer k =>
      have hout : ¬(p ≤ k.toInt ∧ k.toInt ≤ old.border + 1) := fun h => hk k h.1 h.2 rfl
      rw [Table.getKey_integer, hread, if_neg (by omega), if_neg (by omega)]
      rfl
    | _ => exact (hnew _).trans (update_of_not_integer _ _ _ nofun)

theorem removeEffect_of_removed (hold : old.WellFormed) (hlow : -2 ^ 63 ≤ p) (hhigh : p < 2 ^ 63)
    (hfits : old.border < 2 ^ 63)
    (hnew : ∀ k, new.getKey k = removed old.getKey old.border p k) : RemoveEffect old new p := by
  have hread : ∀ k : Int64, new.getInteger k = if k.toInt = max p old.border then .nil
      else if p ≤ k.toInt ∧ k.toInt < max p old.border
        then old.getInteger (Int64.ofInt (k.toInt + 1))
      else old.getInteger k := by
    intro k
    rw [← Table.getKey_integer, hnew, removed_integer _ hlow hhigh (by omega)]
    rfl
  have hothers : ∀ k : Key, (∀ i : Int64, p ≤ i.toInt → i.toInt ≤ max p old.border →
      k ≠ .integer i) → new.getKey k = old.getKey k := by
    intro k hk
    cases k with
    | integer k =>
      have hout : ¬(p ≤ k.toInt ∧ k.toInt ≤ max p old.border) := fun h => hk k h.1 h.2 rfl
      rw [Table.getKey_integer, hread, if_neg (by omega), if_neg (by omega)]
      rfl
    | _ => exact (hnew _).trans (update_of_not_integer _ _ _ nofun)
  refine ⟨fun k k' hlow' hhigh' hk => ?_, fun k hk => ?_, hothers, fun hbehind k => ?_⟩
  · have hnext : Int64.ofInt (k.toInt + 1) = k' := by rw [← hk, Int64.ofInt_toInt]
    rw [hread, if_neg (by omega), if_pos ⟨hlow', by omega⟩, hnext]
  · rw [hread, if_pos hk]
  -- behind the border the range of changed keys is the place itself
  · by_cases hend : ∃ i : Int64, i.toInt = p ∧ k = .integer i
    · obtain ⟨i, hi, rfl⟩ := hend
      have hempty : old.getInteger i = .nil := hold.behind_border (by omega)
      rw [Table.getKey_integer, Table.getKey_integer, hread, if_pos (by omega), hempty]
    · exact hothers k fun i hlow' hhigh' hk => hend ⟨i, by omega, hk⟩

end

section
variable {call : Caller} {m : Machine} {id : TableId}

theorem insert_run (position : Option Int64) (v : Value) :
    ((Machine.host call).insert (.table id) position v).run m
      = ((Collection.native id).insertAt (Machine.host call)
        (Int64.ofNat (m.heap.table id).border) position v).run m := by
  rw [Host.insert, run_bind, collectionWithBorder_table]

theorem remove_run (position : Option Int64) :
    ((Machine.host call).remove (.table id) position).run m
      = ((Collection.native id).removeAt (Machine.host call)
        (Int64.ofNat (m.heap.table id).border) position).run m := by
  rw [Host.remove, run_bind, collectionWithBorder_table]

end

/-- **What an insertion does to a table without hooks, whatever its keys.**  Without a position it is
behind the border.  A position of `1, ..., border + 1` is written, the values from there to the border
are one key further, and no other key of any kind changed, nor anything but the values of the table;
the border is raised unless `nil` was put behind it.  At any other position the call fails and
changes nothing.  Positions have 64 bits.  `hfits` says that the one behind the border does, and
`hstart` that where the greatest of them is given it is too far behind the border to be accepted.  Both
are true of every array that exists. -/
theorem insert_effect (call : Caller) {m : Machine} {id : TableId} (hp : m.heap.Plain id)
    (hfits : (m.heap.table id).border + 1 < 2 ^ 63) (hlinks : m.limits.maxMetaChain ≠ 0)
    (position : Option Int64) (v : Value) (p : Int)
    (hposition : position.elim ((m.heap.table id).border + 1 : Int) Int64.toInt = p)
    (hstart : position = some Int64.maxValue → (m.heap.table id).border + 2 < 2 ^ 63) :
    if 1 ≤ p ∧ p ≤ (m.heap.table id).border + 1 then
      ∃ t, ((Machine.host call).insert (.table id) position v).run m = .ok () t ∧
        OnlyTable id m t ∧ InsertEffect (m.heap.table id) (t.heap.table id) p v
    else ((Machine.host call).insert (.table id) position v).run m
      = .error ⟨.badArgument 2 "insert" .positionOutOfBounds, []⟩ m := by
  have hcount : (Int64.ofNat (m.heap.table id).border).toInt = (m.heap.table id).border :=
    toInt_position (by omega)
  rw [insert_run]
  split
  · next hin =>
    have hfilled : Filled id m (m.heap.table id).getKey m :=
      ⟨OnlyTable.refl hp (by omega), fun _ => rfl⟩
    have hnext : (Int64.ofNat (m.heap.table id).border).toInt + 1 < 2 ^ 63 := by omega
    have hstart : position = none ∨ p + 1 < 2 ^ 63 := by
      cases position with
      | none => exact Or.inl rfl
      | some q =>
        have hposition : q.toInt = p := hposition
        by_cases hgreatest : q = Int64.maxValue
        · have hstart := hstart (congrArg some hgreatest)
          exact Or.inr (by omega)
        · have hsucc := succ_fits_iff.mpr hgreatest
          exact Or.inr (by omega)
    have hends : Ends (Filled id m (m.heap.table id).getKey)
        ((Collection.native id).insertAt (Machine.host call) _ position v) _ _ :=
      ends_insertAt hlinks v hnext (by rw [hcount, hposition]) hin.1 (by omega) hstart
    obtain ⟨_, t, hrun, hdone⟩ := hends.exists_ok hfilled
    rw [hcount] at hdone
    refine ⟨t, hrun, hdone.toOnlyTable,
      insertEffect_of_inserted hin.1 hin.2 (by omega) hdone.getKey fun hv => ?_⟩
    have hraised := ends_raised call hlinks hp hfits hposition hin.1 hin.2 hstart hv m rfl
    rw [hrun] at hraised
    exact hraised.border
  · next hout =>
    cases position with
    | none =>
      have hposition : ((m.heap.table id).border + 1 : Int) = p := hposition
      omega
    | some position =>
      have hposition : position.toInt = p := hposition
      dsimp only [Collection.insertAt]
      rw [appendPosition_ofNat (by omega), if_pos (by omega)]
      rfl

/-- `nil` put in front of a gap: the value at the border moves up and pulls in the one behind -/
theorem insert_effect_gapped :
    gapped.heap.Plain ⟨0⟩ ∧ (gapped.heap.table ⟨0⟩).border + 1 < 2 ^ 63 ∧
    gapped.limits.maxMetaChain ≠ 0 ∧
    ∃ t, ((Machine.host EvalM.call).insert (.table ⟨0⟩) (some 2) .nil).run gapped = .ok () t ∧
      OnlyTable ⟨0⟩ gapped t ∧
      InsertEffect (gapped.heap.table ⟨0⟩) (t.heap.table ⟨0⟩) 2 .nil := by
  have hborder : (gapped.heap.table ⟨0⟩).border = 3 := by decide
  have hfits : (gapped.heap.table ⟨0⟩).border + 1 < 2 ^ 63 := by omega
  have hlinks : gapped.limits.maxMetaChain ≠ 0 := by decide
  have heffect := insert_effect EvalM.call plain_gapped hfits hlinks (some 2) .nil 2 rfl nofun
  rw [if_pos (by omega)] at heffect
  exact ⟨plain_gapped, hfits, hlinks, heffect⟩

/-- **What a removal does to a table without hooks, whatever its keys.**  Without a position it is at
the border.  At the border itself, also when it is zero, and at any position of
`1, ..., border + 1` the value there is returned, those behind it up to the border are one key
nearer, the end of the list is cleared, and no other key of any kind changed, nor anything but the
values of the table.  At any other position nothing is returned and nothing changes.  As above,
`hfits` is true of every array that exists. -/
theorem remove_effect (call : Caller) {m : Machine} {id : TableId} (hp : m.heap.Plain id)
    (hfits : (m.heap.table id).border + 1 < 2 ^ 63) (hlinks : m.limits.maxMetaChain ≠ 0)
    (position : Option Int64) (k : Int64)
    (hposition : position.getD (Int64.ofNat (m.heap.table id).border) = k) :
    if k.toInt = (m.heap.table id).border ∨
        1 ≤ k.toInt ∧ k.toInt ≤ (m.heap.table id).border + 1 then
      ∃ t, ((Machine.host call).remove (.table id) position).run m
          = .ok (some ((m.heap.table id).getInteger k)) t ∧
        OnlyTable id m t ∧ RemoveEffect (m.heap.table id) (t.heap.table id) k.toInt
    else ((Machine.host call).remove (.table id) position).run m = .ok none m := by
  have hcount : (Int64.ofNat (m.heap.table id).border).toInt = (m.heap.table id).border :=
    toInt_position (by omega)
  have hremovable : Collection.isRemovable (Int64.ofNat (m.heap.table id).border) k = true ↔ _ :=
    isRemovable_iff (by omega)
  rw [hcount, ← hposition] at hremovable
  rw [remove_run, ← hposition]
  split
  · next hin =>
    have hfilled : Filled id m (m.heap.table id).getKey m :=
      ⟨OnlyTable.refl hp (by omega), fun _ => rfl⟩
    have hends : Ends (Filled id m (m.heap.table id).getKey)
        ((Collection.native id).removeAt (Machine.host call) _ position) _ _ :=
      ends_removeAt hlinks (hremovable.mpr hin)
    obtain ⟨r, t, hrun, hr, hdone⟩ := hends.exists_ok hfilled
    rw [hr] at hrun
    rw [hcount] at hdone
    exact ⟨t, hrun, hdone.toOnlyTable, removeEffect_of_removed hp.wellFormed (Int64.le_toInt _)
      (Int64.toInt_lt _) (by omega) hdone.getKey⟩
  · next hout =>
    have hrefused := Bool.eq_false_iff.mpr (mt hremovable.mp hout)
    unfold Collection.removeAt
    simp only [hrefused]
    rfl

/-- the last element removed: only a gap is left in front of it -/
theorem remove_effect_gapped :
    gapped.heap.Plain ⟨0⟩ ∧ (gapped.heap.table ⟨0⟩).border + 1 < 2 ^ 63 ∧
    gapped.limits.maxMetaChain ≠ 0 ∧
    ∃ t, ((Machine.host EvalM.call).remove (.table ⟨0⟩) none).run gapped
        = .ok (some ((gapped.heap.table ⟨0⟩).getInteger 3)) t ∧
      OnlyTable ⟨0⟩ gapped t ∧ RemoveEffect (gapped.heap.table ⟨0⟩) (t.heap.table ⟨0⟩) 3 := by
  have hborder : (gapped.heap.table ⟨0⟩).border = 3 := by decide
  have hfits : (gapped.heap.table ⟨0⟩).border + 1 < 2 ^ 63 := by omega
  have hlinks : gapped.limits.maxMetaChain ≠ 0 := by decide
  have hlast : (none : Option Int64).getD (Int64.ofNat (gapped.heap.table ⟨0⟩).border) = 3 := by
    rw [hborder]
    rfl
  have heffect := remove_effect EvalM.call plain_gapped hfits hlinks none 3 hlast
  rw [if_pos (Or.inl (by rw [hborder]; rfl))] at heffect
  exact ⟨plain_gapped, hfits, hlinks, heffect⟩

end ScriptTables
