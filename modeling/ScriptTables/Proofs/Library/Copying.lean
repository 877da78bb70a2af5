import ScriptTables.Library.Move
import ScriptTables.Machine.Call
import ScriptTables.Proofs.Library.Shifting

/-!
# Moving a range of a plain table

What a move does to plain tables, as maps from keys to values: under the positions of the destination
stands what the source range held before the move, holes included, and no other key changes.  Source
and target may be one table, and the two ranges may overlap.

A move copies element by element, in one of two orders.  What has been copied is an interval of
the range either way, which grows at its end or at its start, so one statement is kept by both loops.
They differ in what is read later: of a table that is copied into itself no such position is
written.

* `MoveRange.readAt`, `MoveRange.writtenAt`   the positions of a range, by number;
* `OnlyValues id m`             what is the same as in `m` while the values of a table change;
* `Copied source target r m lo hi`   a part of a range is copied;
* `ends_copyUpward`, `ends_copyDownward`   the two loops;
* `move_copies`                 a move.
-/

namespace ScriptTables

/-! ## the positions of a range -/

namespace MoveRange

variable {r : MoveRange}

/-- the source position with a number that counts from zero -/
def readAt (r : MoveRange) (o : Int) : Int64 := Int64.ofInt (r.first.toInt + o)

def writtenAt (r : MoveRange) (o : Int) : Int64 := Int64.ofInt (r.destination.toInt + o)

theorem toInt_readAt {o : Int} (hlow : 0 ≤ o) (hhigh : o < r.count) :
    (r.readAt o).toInt = r.first.toInt + o := by
  have hfirst := r.first.le_toInt
  have hlast := r.last.toInt_lt
  rw [count] at hhigh
  exact Int64.toInt_ofInt_of_le (by omega) (by omega)

theorem toInt_writtenAt (hr : r.fault? = none) {o : Int} (hlow : 0 ≤ o) (hhigh : o < r.count) :
    (r.writtenAt o).toInt = r.destination.toInt + o := by
  have hdestination := r.destination.le_toInt
  have hend := destination_le hr
  exact Int64.toInt_ofInt_of_le (by omega) (by omega)

theorem eq_of_writtenAt (hr : r.fault? = none) {o x : Int} (ho : 0 ≤ o ∧ o < r.count)
    (hx : 0 ≤ x ∧ x < r.count) (h : r.writtenAt o = r.writtenAt x) : o = x := by
  have hto := r.toInt_writtenAt hr ho.1 ho.2
  rw [h, r.toInt_writtenAt hr hx.1 hx.2] at hto
  omega

end MoveRange

/-! ## what is copied -/

/-- From `m` to `t` nothing changed but the values of one table. -/
structure OnlyValues (id : TableId) (m t : Machine) : Prop where
  metatable : (t.heap.table id).metatable = (m.heap.table id).metatable
  tables : ∀ id', id' ≠ id → t.heap.table id' = m.heap.table id'
  machine : { t with heap := { t.heap with tables := m.heap.tables } } = m

theorem OnlyValues.refl (id : TableId) (m : Machine) : OnlyValues id m m := ⟨rfl, fun _ _ => rfl, rfl⟩

theorem OnlyValues.limits {id : TableId} {m t : Machine} (h : OnlyValues id m t) :
    t.limits = m.limits := by
  have hlimits := congrArg Machine.limits h.machine
  exact hlimits

theorem OnlyValues.write {id : TableId} {m t : Machine} (h : OnlyValues id m t) (k : Key) (v : Value) :
    OnlyValues id m (t.write id k v) where
  metatable := (Heap.metatable_table_write t.heap id k v id).trans h.metatable
  tables id' hne := (Heap.table_write_of_ne t.heap hne k v).trans (h.tables id' hne)
  machine := h.machine

/-- The elements of a range with the numbers `lo, ..., hi - 1` are copied, and nothing else changed
since `m`. -/
structure Copied (source target : TableId) (r : MoveRange) (m : Machine) (lo hi : Int)
    (t : Machine) : Prop extends OnlyValues target m t where
  readable : t.heap.Plain source
  writable : t.heap.Plain target
  values : ∀ o, lo ≤ o → o < hi →
    (t.heap.table target).getInteger (r.writtenAt o)
      = (m.heap.table source).getInteger (r.readAt o)
  others : ∀ k : Key, (∀ o, lo ≤ o → o < hi → k ≠ .integer (r.writtenAt o)) →
    (t.heap.table target).getKey k = (m.heap.table target).getKey k

namespace Copied

variable {source target : TableId} {r : MoveRange} {m t : Machine} {lo hi : Int}

theorem start (hsource : m.heap.Plain source) (htarget : m.heap.Plain target) (o : Int) :
    Copied source target r m o o m where
  toOnlyValues := OnlyValues.refl target m
  readable := hsource
  writable := htarget
  values := by omega
  others _ _ := rfl

theorem unread (h : Copied source target r m lo hi t) {o : Int}
    (hunread : source = target → ∀ x, lo ≤ x → x < hi → r.readAt o ≠ r.writtenAt x) :
    (t.heap.table source).getInteger (r.readAt o)
      = (m.heap.table source).getInteger (r.readAt o) := by
  by_cases hsame : source = target
  · have hother := h.others (.integer (r.readAt o)) fun x hlow hhigh he =>
      hunread hsame x hlow hhigh (Key.integer.inj he)
    rw [hsame]
    exact hother
  · rw [h.tables source hsame]

theorem write (h : Copied source target r m lo hi t) (hr : r.fault? = none) {lo' hi' o : Int}
    (hlow : 0 ≤ lo') (hhigh : hi' ≤ r.count)
    (hgrown : ∀ x, lo' ≤ x ∧ x < hi' ↔ (lo ≤ x ∧ x < hi) ∨ x = o) :
    Copied source target r m lo' hi' (t.write target (.integer (r.writtenAt o))
      ((m.heap.table source).getInteger (r.readAt o))) := by
  have ho : lo' ≤ o ∧ o < hi' := (hgrown o).mpr (Or.inr rfl)
  have hread : ∀ k, ((t.write target (.integer (r.writtenAt o))
      ((m.heap.table source).getInteger (r.readAt o))).heap.table target).getKey k
      = if Key.integer (r.writtenAt o) = k then (m.heap.table source).getInteger (r.readAt o)
        else (t.heap.table target).getKey k := by
    intro k
    show ((t.heap.write target _ _).table target).getKey k = _
    rw [Heap.table_write_self, Table.getKey_setKey h.writable.wellFormed]
  refine ⟨h.toOnlyValues.write _ _, h.readable.write h.writable.wellFormed _ _,
    h.writable.write_position _ _, fun x hx hx' => ?_, fun k hk => ?_⟩
  · rw [← Table.getKey_integer, hread]
    by_cases hxo : x = o
    · rw [hxo, if_pos rfl]
    · have hold := ((hgrown x).mp ⟨hx, hx'⟩).resolve_right hxo
      have hne : Key.integer (r.writtenAt o) ≠ .integer (r.writtenAt x) := fun he =>
        hxo (r.eq_of_writtenAt hr ⟨by omega, by omega⟩ ⟨by omega, by omega⟩ (Key.integer.inj he)).symm
      rw [if_neg hne]
      exact h.values x hold.1 hold.2
  · rw [hread, if_neg fun he => hk o ho.1 ho.2 he.symm]
    refine h.others k fun x hx hx' => ?_
    have hin := (hgrown x).mpr (Or.inl ⟨hx, hx'⟩)
    exact hk x hin.1 hin.2

end Copied

/-! ## the loops -/

section
variable (call : Caller) {source target : TableId} {r : MoveRange} {m : Machine}

theorem ends_copyElement (hlinks : m.limits.maxMetaChain ≠ 0) (hr : r.fault? = none)
    {lo hi lo' hi' o : Int} (hlow : 0 ≤ lo') (hhigh : hi' ≤ r.count)
    (hgrown : ∀ x, lo' ≤ x ∧ x < hi' ↔ (lo ≤ x ∧ x < hi) ∨ x = o)
    (hunread : source = target → ∀ x, lo ≤ x → x < hi → r.readAt o ≠ r.writtenAt x)
    {rest : EvalM Unit} {Q : Unit → Machine → Prop}
    (hrest : Ends (Copied source target r m lo' hi') rest Q fun _ _ => False) :
    Ends (Copied source target r m lo hi)
      (do
        let v ← (Collection.native source).get (Machine.host call) (r.first.toInt + o)
        (Collection.native target).set (Machine.host call) (r.destination.toInt + o) v
        rest) Q fun _ _ => False := by
  intro t ht
  have hlinks : t.limits.maxMetaChain ≠ 0 := by
    rw [ht.limits]
    exact hlinks
  have hget := get_plain call ht.readable hlinks (r.first.toInt + o)
  have hvalue : (t.heap.table source).getInteger (Int64.ofInt (r.first.toInt + o)) = _ :=
    ht.unread hunread
  rw [hvalue] at hget
  rw [run_bind_of_ok hget, run_bind_of_ok (set_plain call ht.writable hlinks _ _)]
  exact hrest _ (ht.write hr hlow hhigh hgrown)

/-- Copied from the start: the rest of the source is not among what has been written when the
destination starts no later than the source does, or behind its end. -/
theorem ends_copyUpward (hlinks : m.limits.maxMetaChain ≠ 0) (hr : r.fault? = none)
    (hclear : source = target → r.isClear = true) (n : Nat) :
    ∀ o : Int, 0 ≤ o → o + n = r.count → Ends (Copied source target r m 0 o)
      (Collection.copyUpward (Machine.host call) (.native source) (.native target) n
        (r.first.toInt + o) (r.destination.toInt + o))
      (fun _ => Copied source target r m 0 r.count) fun _ _ => False := by
  induction n with
  | zero =>
    intro o _ hend
    rw [Int.natCast_zero, Int.add_zero] at hend
    subst hend
    exact Ends.pure fun t ht => ht
  | succ n ih =>
    intro o hlow hend
    have hrest := ih (o + 1) (by omega) (by omega)
    rw [← Int.add_assoc, ← Int.add_assoc] at hrest
    refine ends_copyElement call hlinks hr (Int.le_refl 0) (by omega) (fun x => by omega)
      (fun hsame x hx hxo he => ?_) hrest
    have hread := r.toInt_readAt hlow (by omega)
    rw [he, r.toInt_writtenAt hr hx (by omega)] at hread
    have hcount : r.count = r.last.toInt - r.first.toInt + 1 := rfl
    rcases r.isClear_iff.mp (hclear hsame) with hbehind | hbefore <;> omega

/-- Copied from the end: what is left of the source lies below all that has been written when the
destination starts behind the start of the source. -/
theorem ends_copyDownward (hlinks : m.limits.maxMetaChain ≠ 0) (hr : r.fault? = none)
    (hbehind : source = target → r.first.toInt ≤ r.destination.toInt) (n : Nat) :
    (n : Int) ≤ r.count → Ends (Copied source target r m n r.count)
      (Collection.copyDownward (Machine.host call) (.native source) (.native target) r.first.toInt
        r.destination.toInt n)
      (fun _ => Copied source target r m 0 r.count) fun _ _ => False := by
  induction n with
  | zero => exact fun _ => Ends.pure fun t ht => ht
  | succ n ih =>
    intro hn
    refine ends_copyElement call hlinks hr (Int.natCast_nonneg n) (Int.le_refl r.count)
      (fun x => by omega) (fun hsame x hx hxend he => ?_) (ih (by omega))
    have hstart := hbehind hsame
    have hread := r.toInt_readAt (o := n) (by omega) (by omega)
    rw [he, r.toInt_writtenAt hr (by omega) hxend] at hread
    omega

theorem ends_moveBetween (hsource : m.heap.Plain source) (htarget : m.heap.Plain target)
    (hlinks : m.limits.maxMetaChain ≠ 0) (hr : r.isEmpty = true ∨ r.fault? = none) :
    Ends (· = m) ((Machine.host call).moveBetween (.native source) r (.native target))
      (fun _ t => Copied source target r m 0 r.count t ∧ (r.isEmpty = true → t = m))
      fun _ _ => False := by
  unfold Host.moveBetween
  by_cases hempty : r.isEmpty = true
  · rw [if_pos hempty]
    have hshort := r.isEmpty_iff.mp hempty
    refine Ends.pure fun t ht => ⟨?_, fun _ => ht⟩
    subst ht
    exact ⟨OnlyValues.refl target t, hsource, htarget, by omega, fun _ _ => rfl⟩
  · rw [if_neg hempty]
    have hlong := mt r.isEmpty_iff.mpr hempty
    have hfault : r.fault? = none := hr.resolve_left hempty
    have hcount : (r.count.toNat : Int) = r.count := by omega
    simp only [hfault]
    have hdone : ∀ t, Copied source target r m 0 r.count t →
        Copied source target r m 0 r.count t ∧ (r.isEmpty = true → t = m) :=
      fun t ht => ⟨ht, fun h => absurd h hempty⟩
    split
    -- upward; with two tables nothing that is written is read later
    · next horder =>
      have hclear : source = target → r.isClear = true := by
        intro hsame
        subst hsame
        simpa [Collection.sameAs] using horder
      have hup := ends_copyUpward call hlinks hfault hclear r.count.toNat 0
        (Int.le_refl 0) (by omega)
      rw [Int.add_zero, Int.add_zero] at hup
      refine hup.mono (fun t ht => ?_) (fun _ => hdone) fun _ _ he => he
      subst ht
      exact Copied.start hsource htarget 0
    -- downward, which is only ever done within one table
    · next horder =>
      have hbehind : source = target → r.first.toInt ≤ r.destination.toInt := by
        intro _
        rw [Bool.or_eq_true, not_or, r.isClear_iff] at horder
        omega
      have hdown := ends_copyDownward call hlinks hfault hbehind r.count.toNat (by omega)
      rw [hcount] at hdown
      refine hdown.mono (fun t ht => ?_) (fun _ => hdone) fun _ _ he => he
      subst ht
      exact Copied.start hsource htarget r.count

end

/-! ## a move -/

/-- **A move is a copy through a buffer, however the two ranges overlap.**  It succeeds with the
target.  Under each position of the destination, which are integers all of them, stands what the
source had under its own before the move; all other keys of the target keep their values, and so
does everything else in the machine.  An empty range changes nothing at all.  A table given as
its own target is the same as none given, to the operation and to the function of the library. -/
theorem move_copies (call : Caller) {m : Machine} {source target : TableId}
    (hsource : m.heap.Plain source) (htarget : m.heap.Plain target)
    (hlinks : m.limits.maxMetaChain ≠ 0) (r : MoveRange)
    (hr : r.isEmpty = true ∨ r.fault? = none) :
    (∃ t, ((Machine.host call).move (.table source) r (some (.table target))).run m
        = .ok (.table target) t ∧ OnlyValues target m t ∧ (r.isEmpty = true → t = m) ∧
      (∀ i : Int, 0 ≤ i → i < r.count → ∃ k k' : Int64,
        k.toInt = r.first.toInt + i ∧ k'.toInt = r.destination.toInt + i ∧
        (t.heap.table target).getInteger k' = (m.heap.table source).getInteger k) ∧
      ∀ k : Key, (∀ i : Int64, r.destination.toInt ≤ i.toInt →
          i.toInt < r.destination.toInt + r.count → k ≠ .integer i) →
        (t.heap.table target).getKey k = (m.heap.table target).getKey k) ∧
    (Machine.host call).move (.table source) r none
      = (Machine.host call).move (.table source) r (some (.table source)) ∧
    ∀ first last destination : Value,
      (Machine.host call).moveFunction [.table source, first, last, destination]
        = (Machine.host call).moveFunction
          [.table source, first, last, destination, .table source] := by
  refine ⟨?_, rfl, fun _ _ _ => rfl⟩
  obtain ⟨_, t, hrun, hcopied, hempty⟩ :=
    (ends_moveBetween call hsource htarget hlinks hr).exists_ok rfl
  have hwritten : ∀ i : Int, 0 ≤ i → i < r.count →
      (r.writtenAt i).toInt = r.destination.toInt + i := by
    intro i hlow hhigh
    have hlong : ¬r.isEmpty = true := by
      rw [r.isEmpty_iff]
      omega
    exact r.toInt_writtenAt (hr.resolve_left hlong) hlow hhigh
  refine ⟨t, ?_, hcopied.toOnlyValues, hempty, fun i hlow hhigh => ?_, fun k hk => ?_⟩
  · show ((Machine.host call).moveBetween (.native source) r (.native target) >>= fun _ =>
      (pure (.table target) : EvalM Value)).run m = _
    rw [run_bind_of_ok hrun]
    rfl
  · exact ⟨r.readAt i, r.writtenAt i, r.toInt_readAt hlow hhigh, hwritten i hlow hhigh,
      hcopied.values i hlow hhigh⟩
  · refine hcopied.others k fun o hlow hhigh => ?_
    have hto := hwritten o hlow hhigh
    exact hk (r.writtenAt o) (by omega) (by omega)

/-- three elements moved up by one, onto themselves and the gap behind them -/
theorem move_copies_gapped :
    gapped.heap.Plain ⟨0⟩ ∧ gapped.limits.maxMetaChain ≠ 0 ∧ (⟨1, 3, 2⟩ : MoveRange).fault? = none ∧
    ∃ t, ((Machine.host EvalM.call).move (.table ⟨0⟩) ⟨1, 3, 2⟩ (some (.table ⟨0⟩))).run gapped
        = .ok (.table ⟨0⟩) t ∧
      ∀ i : Int, 0 ≤ i → i < (⟨1, 3, 2⟩ : MoveRange).count → ∃ k k' : Int64,
        k.toInt = (1 : Int64).toInt + i ∧ k'.toInt = (2 : Int64).toInt + i ∧
        (t.heap.table ⟨0⟩).getInteger k' = (gapped.heap.table ⟨0⟩).getInteger k := by
  have hlinks : gapped.limits.maxMetaChain ≠ 0 := by decide
  have hfault : (⟨1, 3, 2⟩ : MoveRange).fault? = none := by decide
  obtain ⟨t, hrun, _, _, hvalues, _⟩ :=
    (move_copies EvalM.call plain_gapped plain_gapped hlinks ⟨1, 3, 2⟩ (Or.inr hfault)).1
  exact ⟨plain_gapped, hlinks, hfault, t, hrun, hvalues⟩

end ScriptTables
