import Mathlib.Logic.Function.Basic
import ScriptTables.Proofs.Library.Schedules
import ScriptTables.Proofs.Plain
import ScriptTables.Proofs.Sort.Native

/-!
# Inserting into a plain table and removing from it

What the two operations do to a plain table, as a map from keys to values: the values between the
position and the border move by one key, the end of the range is written or cleared, and no other key
changes.  Holes count like other values, and so does what lies behind the border.

* `OnlyTable id m`           what is the same as in `m` while a table is edited;
* `Filled id m f`            and the values of the table are those of `f`;
* `movedUp`, `movedDown`     the values of some keys moved by one;
* `ends_shiftUp`, `ends_shiftDown`   the two loops;
* `ends_insertAt`, `ends_removeAt`   the operations.
-/

namespace ScriptTables

/-! ## the border stays small -/

namespace Table

theorem border_migrate_lt (n : Nat) :
    ∀ t : Table, t.border < 2 ^ 63 → (migrate n t).border < 2 ^ 63 := by
  induction n with
  | zero => exact fun t ht => ht
  | succ n ih =>
    intro t ht
    cases hnext : t.nextEntry? with
    | none =>
      rw [migrate_of_none hnext]
      exact ht
    | some p =>
      obtain ⟨k, v⟩ := p
      rw [migrate_of_some hnext]
      obtain ⟨i, rfl, hi, _⟩ := nextEntry?_eq_some hnext
      refine ih _ ?_
      have hpushed := border_shifted t i v
      have hlast := i.toInt_lt
      show (t.shifted i v).border < 2 ^ 63
      omega

theorem border_setInteger_lt {t : Table} (ht : t.border < 2 ^ 63) (n : Int64) (v : Value) :
    (t.setInteger n v).border < 2 ^ 63 := by
  rcases setInteger_cases t n v with h | h | h
  · rw [h.2.2]
    exact Nat.lt_of_le_of_lt (border_setSlot_le t _ v) ht
  · rw [h.2.2, append_eq]
    refine border_migrate_lt _ _ ?_
    have hpushed := border_pushed t v
    have hn := h.1
    have hlast := n.toInt_lt
    omega
  · rw [h.2.2]
    exact ht

end Table

/-! ## a table that is filled -/

/-- From `m` to `t` nothing changed but the values of one table, which is plain. -/
structure OnlyTable (id : TableId) (m t : Machine) : Prop where
  plain : t.heap.Plain id
  fits : (t.heap.table id).border < 2 ^ 63
  metatable : (t.heap.table id).metatable = (m.heap.table id).metatable
  tables : ∀ id', id' ≠ id → t.heap.table id' = m.heap.table id'
  functions : t.heap.functions = m.heap.functions
  userdata : t.heap.userdata = m.heap.userdata
  machine : { t with heap := m.heap } = m

/-- and the table has `f k` under `k` -/
structure Filled (id : TableId) (m : Machine) (f : Key → Value) (t : Machine) : Prop
    extends OnlyTable id m t where
  getKey : ∀ k, (t.heap.table id).getKey k = f k

section
variable {id : TableId} {m t : Machine} {f : Key → Value}

theorem OnlyTable.refl (hp : m.heap.Plain id) (hfits : (m.heap.table id).border < 2 ^ 63) :
    OnlyTable id m m :=
  ⟨hp, hfits, rfl, fun _ _ => rfl, rfl, rfl, rfl⟩

theorem OnlyTable.limits (h : OnlyTable id m t) : t.limits = m.limits := by
  have hlimits := congrArg Machine.limits h.machine
  exact hlimits

theorem OnlyTable.write (h : OnlyTable id m t) (i : Int64) (v : Value) :
    OnlyTable id m (t.write id (.integer i) v) where
  plain := h.plain.write_position i v
  fits := by
    show ((t.heap.write id (.integer i) v).table id).border < 2 ^ 63
    rw [Heap.table_write_self]
    exact Table.border_setInteger_lt h.fits i v
  metatable := by
    show ((t.heap.write id (.integer i) v).table id).metatable = _
    rw [Heap.metatable_table_write, h.metatable]
  tables id' hne := by
    show (t.heap.write id (.integer i) v).table id' = _
    rw [Heap.table_write_of_ne _ hne, h.tables id' hne]
  functions := h.functions
  userdata := h.userdata
  machine := h.machine

theorem Filled.write (h : Filled id m f t) (i : Int64) (v : Value) :
    Filled id m (Function.update f (.integer i) v) (t.write id (.integer i) v) := by
  refine ⟨h.toOnlyTable.write i v, fun k => ?_⟩
  show ((t.heap.write id (.integer i) v).table id).getKey k = _
  rw [Heap.table_write_self, Table.getKey_setKey h.plain.wellFormed, Function.update_apply,
    h.getKey k]
  exact if_congr eq_comm rfl rfl

theorem Filled.congr {g : Key → Value} (h : Filled id m f t) (hfg : ∀ k, f k = g k) :
    Filled id m g t :=
  ⟨h.toOnlyTable, fun k => (h.getKey k).trans (hfg k)⟩

end

/-! ## keys of positions -/

theorem integer_eq_iff {k : Int64} {i : Int} (hlow : -2 ^ 63 ≤ i) (hhigh : i < 2 ^ 63) :
    Key.integer k = .integer (Int64.ofInt i) ↔ k.toInt = i := by
  have hi : (Int64.ofInt i).toInt = i := Int64.toInt_ofInt_of_le (by omega) (by omega)
  rw [Key.integer.injEq, ← Int64.toInt_inj, hi]

theorem update_integer (f : Key → Value) {i : Int} (hlow : -2 ^ 63 ≤ i) (hhigh : i < 2 ^ 63)
    (v : Value) (k : Int64) :
    Function.update f (.integer (Int64.ofInt i)) v (.integer k)
      = if k.toInt = i then v else f (.integer k) := by
  rw [Function.update_apply]
  exact if_congr (integer_eq_iff hlow hhigh) rfl rfl

theorem update_of_not_integer (f : Key → Value) (i : Int64) (v : Value) {k : Key}
    (hk : ∀ n, k ≠ .integer n) : Function.update f (.integer i) v k = f k :=
  Function.update_of_ne (hk i) v f

/-- the values under `lo, ..., hi - 1` moved up by one key -/
def movedUp (f : Key → Value) (lo hi : Int) : Key → Value
  | .integer k =>
    if lo < k.toInt ∧ k.toInt ≤ hi then f (.integer (Int64.ofInt (k.toInt - 1))) else f (.integer k)
  | k => f k

def movedDown (f : Key → Value) (lo hi : Int) : Key → Value
  | .integer k =>
    if lo ≤ k.toInt ∧ k.toInt < hi then f (.integer (Int64.ofInt (k.toInt + 1))) else f (.integer k)
  | k => f k

theorem movedUp_integer (f : Key → Value) (lo hi : Int) (k : Int64) :
    movedUp f lo hi (.integer k) = if lo < k.toInt ∧ k.toInt ≤ hi
      then f (.integer (Int64.ofInt (k.toInt - 1))) else f (.integer k) := rfl

theorem movedDown_integer (f : Key → Value) (lo hi : Int) (k : Int64) :
    movedDown f lo hi (.integer k) = if lo ≤ k.toInt ∧ k.toInt < hi
      then f (.integer (Int64.ofInt (k.toInt + 1))) else f (.integer k) := rfl

theorem movedUp_self (f : Key → Value) (i : Int) (k : Key) : movedUp f i i k = f k := by
  cases k with
  | integer k => rw [movedUp_integer, if_neg (by omega)]
  | _ => rfl

theorem movedDown_self (f : Key → Value) (i : Int) (k : Key) : movedDown f i i k = f k := by
  cases k with
  | integer k => rw [movedDown_integer, if_neg (by omega)]
  | _ => rfl

theorem movedUp_step (f : Key → Value) {lo hi : Int} (hlo : -2 ^ 63 ≤ lo) (hle : lo < hi)
    (hhi : hi < 2 ^ 63) (k : Key) :
    movedUp (Function.update f (.integer (Int64.ofInt hi)) (f (.integer (Int64.ofInt (hi - 1)))))
      lo (hi - 1) k = movedUp f lo hi k := by
  cases k with
  | integer k =>
    rw [movedUp_integer, movedUp_integer]
    by_cases hin : lo < k.toInt ∧ k.toInt ≤ hi - 1
    · have hprev : (Int64.ofInt (k.toInt - 1)).toInt = k.toInt - 1 :=
        Int64.toInt_ofInt_of_le (by omega) (by omega)
      rw [if_pos hin, if_pos ⟨hin.1, by omega⟩, update_integer f (by omega) hhi, hprev,
        if_neg (by omega)]
    · rw [if_neg hin, update_integer f (by omega) hhi]
      by_cases hend : k.toInt = hi
      · rw [if_pos hend, if_pos ⟨by omega, by omega⟩, hend]
      · rw [if_neg hend, if_neg (by omega)]
  | _ => exact update_of_not_integer f _ _ nofun

theorem movedDown_step (f : Key → Value) {lo hi : Int} (hlo : -2 ^ 63 ≤ lo) (hle : lo < hi)
    (hhi : hi < 2 ^ 63) (k : Key) :
    movedDown (Function.update f (.integer (Int64.ofInt lo)) (f (.integer (Int64.ofInt (lo + 1)))))
      (lo + 1) hi k = movedDown f lo hi k := by
  cases k with
  | integer k =>
    rw [movedDown_integer, movedDown_integer]
    by_cases hin : lo + 1 ≤ k.toInt ∧ k.toInt < hi
    · have hnext : (Int64.ofInt (k.toInt + 1)).toInt = k.toInt + 1 :=
        Int64.toInt_ofInt_of_le (by omega) (by omega)
      rw [if_pos hin, if_pos ⟨by omega, hin.2⟩, update_integer f hlo (by omega), hnext,
        if_neg (by omega)]
    · rw [if_neg hin, update_integer f hlo (by omega)]
      by_cases hstart : k.toInt = lo
      · rw [if_pos hstart, if_pos ⟨by omega, by omega⟩, hstart]
      · rw [if_neg hstart, if_neg (by omega)]
  | _ => exact update_of_not_integer f _ _ nofun

/-- a value put at a position, those from there to the border moved up -/
def inserted (f : Key → Value) (border position : Int) (v : Value) : Key → Value :=
  Function.update (movedUp f position (border + 1)) (.integer (Int64.ofInt position)) v

/-- The value at a position taken away, those behind it up to the border moved down.  The position
may lie behind the border. -/
def removed (f : Key → Value) (border position : Int) : Key → Value :=
  Function.update (movedDown f position (max position border))
    (.integer (Int64.ofInt (max position border))) .nil

theorem inserted_integer (f : Key → Value) {border position : Int} (hlow : -2 ^ 63 ≤ position)
    (hhigh : position < 2 ^ 63) (v : Value) (k : Int64) :
    inserted f border position v (.integer k) =
      if k.toInt = position then v
      else if position < k.toInt ∧ k.toInt ≤ border + 1 then f (.integer (Int64.ofInt (k.toInt - 1)))
      else f (.integer k) := by
  rw [inserted, update_integer _ hlow hhigh, movedUp_integer]

theorem removed_integer (f : Key → Value) {border position : Int} (hlow : -2 ^ 63 ≤ position)
    (hposition : position < 2 ^ 63) (hborder : border < 2 ^ 63) (k : Int64) :
    removed f border position (.integer k) =
      if k.toInt = max position border then .nil
      else if position ≤ k.toInt ∧ k.toInt < max position border
        then f (.integer (Int64.ofInt (k.toInt + 1)))
      else f (.integer k) := by
  rw [removed, update_integer _ (by omega) (by omega), movedDown_integer]

/-- keys that are no positive integers -/
def Key.Low (k : Key) : Prop := ∀ n : Int64, 1 ≤ n.toInt → k ≠ .integer n

theorem inserted_low (f : Key → Value) {border position : Int} (hlow : 1 ≤ position)
    (hhigh : position < 2 ^ 63) (v : Value) {k : Key} (hk : k.Low) :
    inserted f border position v k = f k := by
  cases k with
  | integer k =>
    have hneg : ¬1 ≤ k.toInt := fun hpos => hk k hpos rfl
    rw [inserted_integer f (by omega) hhigh, if_neg (by omega), if_neg (by omega)]
  | _ => exact update_of_not_integer _ _ _ nofun

theorem removed_low (f : Key → Value) {border position : Int} (hlow : 1 ≤ position)
    (hposition : position < 2 ^ 63) (hborder : border < 2 ^ 63) {k : Key} (hk : k.Low) :
    removed f border position k = f k := by
  cases k with
  | integer k =>
    have hneg : ¬1 ≤ k.toInt := fun hpos => hk k hpos rfl
    rw [removed_integer f (by omega) hposition hborder, if_neg (by omega), if_neg (by omega)]
  | _ => exact update_of_not_integer _ _ _ nofun

/-! ## the loops -/

theorem get_table (call : Caller) {t : Machine} {id : TableId}
    (hreading : t.heap.metamethod (.table id) indexHook = .nil)
    (hlinks : t.limits.maxMetaChain ≠ 0) (i : Int) :
    ((Collection.native id).get (Machine.host call) i).run t
      = .ok ((t.heap.table id).getInteger (Int64.ofInt i)) t := by
  have hrun : ((Collection.native id).get (Machine.host call) i).run t = _ :=
    EvalM.index_table call hreading (.integer (Int64.ofInt i))
  rw [hrun, if_neg hlinks]
  rfl

theorem get_plain (call : Caller) {t : Machine} {id : TableId} (hp : t.heap.Plain id)
    (hlinks : t.limits.maxMetaChain ≠ 0) (i : Int) :
    ((Collection.native id).get (Machine.host call) i).run t
      = .ok ((t.heap.table id).getInteger (Int64.ofInt i)) t := get_table call hp.reading hlinks i

theorem set_plain (call : Caller) {t : Machine} {id : TableId} (hp : t.heap.Plain id)
    (hlinks : t.limits.maxMetaChain ≠ 0) (i : Int) (v : Value) :
    ((Collection.native id).set (Machine.host call) i v).run t
      = .ok () (t.write id (.integer (Int64.ofInt i)) v) := by
  have hrun : ((Collection.native id).set (Machine.host call) i v).run t = _ :=
    EvalM.setIndex_plain call hp (Key.ofValue?_integer (Int64.ofInt i)) v
  rw [hrun, if_neg hlinks]

section
variable {call : Caller} {id : TableId} {m : Machine} {f : Key → Value}

theorem ends_get (hlinks : m.limits.maxMetaChain ≠ 0) (i : Int) :
    Ends (Filled id m f) ((Collection.native id).get (Machine.host call) i)
      (fun v t => v = f (.integer (Int64.ofInt i)) ∧ Filled id m f t) fun _ _ => False := by
  intro t ht
  rw [get_plain call ht.plain (by rw [ht.limits]; exact hlinks)]
  exact ⟨ht.getKey (.integer (Int64.ofInt i)), ht⟩

theorem ends_set (hlinks : m.limits.maxMetaChain ≠ 0) (i : Int) (v : Value) :
    Ends (Filled id m f) ((Collection.native id).set (Machine.host call) i v)
      (fun _ => Filled id m (Function.update f (.integer (Int64.ofInt i)) v))
      fun _ _ => False := by
  intro t ht
  rw [set_plain call ht.plain (by rw [ht.limits]; exact hlinks)]
  exact ht.write _ v

theorem ends_shiftUp (hlinks : m.limits.maxMetaChain ≠ 0) (n : Nat) :
    ∀ (f : Key → Value) (top : Int), -2 ^ 63 ≤ top - n → top < 2 ^ 63 →
      Ends (Filled id m f) ((Collection.native id).shiftUp (Machine.host call) n top)
        (fun _ => Filled id m (movedUp f (top - n) top)) fun _ _ => False := by
  induction n with
  | zero =>
    intro f top _ _
    refine Ends.pure fun t ht => ht.congr fun k => ?_
    rw [Int.natCast_zero, Int.sub_zero, movedUp_self]
  | succ n ih =>
    intro f top hlow hhigh
    refine Ends.bind (ends_get hlinks (top - 1)) fun v => ?_
    refine Ends.of_and fun hv => ?_
    subst hv
    refine Ends.bind (ends_set hlinks top _) fun _ => ?_
    refine (ih _ (top - 1) (by omega) (by omega)).mono (fun _ ht => ht) (fun _ t ht => ?_)
      fun _ _ he => he
    have hlo : top - 1 - n = top - (n + 1 : Nat) := by omega
    rw [hlo] at ht
    exact ht.congr (movedUp_step f hlow (by omega) hhigh)

theorem ends_shiftDown (hlinks : m.limits.maxMetaChain ≠ 0) (n : Nat) :
    ∀ (f : Key → Value) (bottom : Int), -2 ^ 63 ≤ bottom → bottom + n < 2 ^ 63 →
      Ends (Filled id m f) ((Collection.native id).shiftDown (Machine.host call) n bottom)
        (fun _ => Filled id m (movedDown f bottom (bottom + n))) fun _ _ => False := by
  induction n with
  | zero =>
    intro f bottom _ _
    refine Ends.pure fun t ht => ht.congr fun k => ?_
    rw [Int.natCast_zero, Int.add_zero, movedDown_self]
  | succ n ih =>
    intro f bottom hlow hhigh
    refine Ends.bind (ends_get hlinks (bottom + 1)) fun v => ?_
    refine Ends.of_and fun hv => ?_
    subst hv
    refine Ends.bind (ends_set hlinks bottom _) fun _ => ?_
    refine (ih _ (bottom + 1) (by omega) (by omega)).mono (fun _ ht => ht) (fun _ t ht => ?_)
      fun _ _ he => he
    have hhi : bottom + 1 + n = bottom + (n + 1 : Nat) := by omega
    rw [hhi] at ht
    exact ht.congr (movedDown_step f hlow (by omega) hhigh)

/-! ## the operations -/

theorem ends_insertAt (hlinks : m.limits.maxMetaChain ≠ 0) {border : Int64} (v : Value)
    (hborder : border.toInt + 1 < 2 ^ 63) {position : Option Int64} {p : Int}
    (hp : position.elim (border.toInt + 1) Int64.toInt = p) (hlow : 1 ≤ p)
    (hhigh : p ≤ border.toInt + 1) (hstart : position = none ∨ p + 1 < 2 ^ 63) :
    Ends (Filled id m f)
      ((Collection.native id).insertAt (Machine.host call) border position v)
      (fun _ => Filled id m (inserted f border.toInt p v)) fun _ _ => False := by
  have hlast : Collection.appendPosition border = border.toInt + 1 := toInt_succ hborder
  have hend : border.toInt + 1 - (border.toInt + 1 - p).toNat = p := by omega
  unfold Collection.insertAt
  simp only [hlast]
  have hshift : Ends (Filled id m f) ((Collection.native id).shiftUp (Machine.host call)
      (border.toInt + 1 - p).toNat (border.toInt + 1))
      (fun _ => Filled id m (movedUp f p (border.toInt + 1))) fun _ _ => False := by
    refine (ends_shiftUp hlinks _ f _ (by omega) hborder).mono (fun _ ht => ht)
      (fun _ t ht => ?_) fun _ _ he => he
    rw [hend] at ht
    exact ht
  cases position with
  | none =>
    subst hp
    refine (ends_set hlinks (border.toInt + 1) v).mono (fun t ht => ?_) (fun _ _ ht => ht)
      fun _ _ he => he
    exact ht.congr fun k => (movedUp_self f _ k).symm
  | some position =>
    have hp : position.toInt = p := hp
    subst hp
    dsimp only
    rw [if_neg (by omega), Collection.shiftCount_eq (hstart.resolve_left nofun), hlast]
    exact Ends.bind hshift fun _ => ends_set hlinks _ v

theorem ends_removeAt (hlinks : m.limits.maxMetaChain ≠ 0) {border : Int64}
    {position : Option Int64} (h : Collection.isRemovable border (position.getD border) = true) :
    Ends (Filled id m f) ((Collection.native id).removeAt (Machine.host call) border position)
      (fun r t => r = some (f (.integer (position.getD border))) ∧
        Filled id m (removed f border.toInt (position.getD border).toInt) t) fun _ _ => False := by
  unfold Collection.removeAt
  simp only [h, if_true]
  generalize position.getD border = p
  have hlow := p.le_toInt
  have hhigh := p.toInt_lt
  have hborder := border.toInt_lt
  have hend : p.toInt + (border.toInt - p.toInt).toNat = max p.toInt border.toInt := by omega
  refine Ends.bind (ends_get hlinks _) fun v => ?_
  refine Ends.of_and fun hv => ?_
  refine Ends.bind (ends_shiftDown hlinks _ f _ hlow (by omega)) fun _ => ?_
  rw [hend]
  refine Ends.bind (ends_set hlinks _ _) fun _ => ?_
  refine Ends.pure fun t ht => ⟨?_, ht⟩
  rw [hv, Int64.ofInt_toInt]

end

/-! ## a table with gaps -/

/-- three elements of which the second is missing, and one more behind a gap -/
def gappedTable : Table :=
  (Table.ofList [.integer 10, .nil, .integer 30]).setKey (.integer 5) (.integer 50)

def gapped : Machine where
  heap := ({} : Heap).pushTable gappedTable
  globals := ⟨0⟩
  limits := {}

theorem plain_gapped : gapped.heap.Plain ⟨0⟩ := by
  have htable : gapped.heap.table ⟨0⟩ = gappedTable := rfl
  have hnone : gapped.heap.metatable? (.table ⟨0⟩) = none := by
    show (gapped.heap.table ⟨0⟩).metatable = none
    rw [htable, gappedTable, Table.metatable_setKey]
    rfl
  refine ⟨?_, Heap.metamethod_of_none hnone _, Heap.metamethod_of_none hnone _⟩
  rw [htable]
  exact (Table.WellFormed.ofList _).setKey_integer _ _

end ScriptTables
