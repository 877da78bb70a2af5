import Mathlib.Algebra.Group.Int.Defs
import Mathlib.Algebra.Group.Nat.Defs
import ScriptTables.Proofs.Plain
import ScriptTables.Proofs.Sort.Arrangement
import ScriptTables.Proofs.Sort.Sortable
import ScriptTables.Library.Namespace

/-!
# The slots of a plain table

Reading a slot of a plain table finds its element, and exchanging two slots exchanges two elements,
holes included.  Either fails only when the limit allows no link of a chain at all, and then it has
changed nothing: no exchange stops halfway.

* `Table.element`, `Table.range`   the values under positions;
* `Table.Rearranged lo hi`         the values of some positions permuted, and nothing else changed;
* `listSlots`                      the slots that a sort of a table works on;
* `listSlots_get`, `listSlots_swap`   what reading and exchanging do;
* `Kept`                           what is true of all states in which a sort leaves the table;
* `Slots.Meets`                    the states that asking and exchanging lead to.
-/

namespace ScriptTables

/-! ## elements -/

namespace Table

/-- the value under a position; what is no integer of 64 bits has none -/
def element (t : Table) (i : Nat) : Value :=
  match int64OfInt? i with
  | some n => t.getInteger n
  | none => .nil

def range (t : Table) (lo hi : Nat) : List Value := (List.range' lo (hi + 1 - lo)).map t.element

def count (t : Table) : Nat := (Int64.ofNat t.border).toInt.toNat

/-- the values of the positions `lo, ..., hi` are permuted; what is under any other key, and the
metatable, are as they were -/
structure Rearranged (lo hi : Nat) (t t' : Table) : Prop where
  perm : (t'.range lo hi).Perm (t.range lo hi)
  others : ∀ k : Key, (∀ i : Int64, (lo : Int) ≤ i.toInt → i.toInt ≤ hi → k ≠ .integer i) →
    t'.getKey k = t.getKey k
  metatable : t'.metatable = t.metatable

theorem element_eq (t : Table) {i : Nat} {n : Int64} (h : n.toInt = i) :
    t.element i = t.getInteger n := by
  rw [element, int64OfInt?_eq_some.mpr h.symm]

theorem count_lt (t : Table) : t.count < 2 ^ 63 := by
  have h := (Int64.ofNat t.border).toInt_lt
  rw [count]
  omega

theorem mem_range {t : Table} {lo hi : Nat} {v : Value} :
    v ∈ t.range lo hi ↔ ∃ i, lo ≤ i ∧ i ≤ hi ∧ t.element i = v := by
  rw [range, List.mem_map]
  refine exists_congr fun i => ?_
  rw [List.mem_range'_1]
  constructor
  · intro h
    exact ⟨h.1.1, by omega, h.2⟩
  · intro h
    exact ⟨⟨h.1, by omega⟩, h.2.2⟩

theorem WellFormed.setKey_integer {t : Table} (ht : t.WellFormed) (n : Int64) (v : Value) :
    (t.setKey (.integer n) v).WellFormed := ht.setKey (k := .integer n) trivial v

theorem element_setKey {t : Table} (ht : t.WellFormed) {i : Nat} {n : Int64} (h : n.toInt = i)
    (v : Value) (j : Nat) :
    (t.setKey (.integer n) v).element j = if j = i then v else t.element j := by
  cases hj : int64OfInt? j with
  | none =>
    have hij : j ≠ i := by
      intro e
      rw [e, int64OfInt?_eq_some.mpr h.symm] at hj
      cases hj
    rw [if_neg hij, element, element, hj]
  | some k =>
    have hkj : k.toInt = j := (int64OfInt?_eq_some.mp hj).symm
    rw [element_eq _ hkj, element_eq _ hkj]
    show (t.setKey (.integer n) v).getKey (.integer k) = _
    rw [getKey_setKey ht]
    by_cases hij : j = i
    · have hnk : n = k := Int64.toInt_inj.mp (by omega)
      rw [if_pos hij, if_pos (congrArg Key.integer hnk)]
    · have hnk : Key.integer n ≠ .integer k := by
        intro e
        have hnk := congrArg Int64.toInt (Key.integer.inj e)
        omega
      rw [if_neg hij, if_neg hnk]
      rfl

end Table

/-! ## slots -/

/-- the slots of a table, with the question that a comparator answers, or the order of the host -/
def listSlots (call : Caller) (id : TableId) (comparator : Option Value) : Slots Machine :=
  (Collection.native id).slots (Machine.host call) comparator

theorem toInt_position {i : Nat} (hi : i < 2 ^ 63) : (Int64.ofInt i).toInt = i :=
  Int64.toInt_ofInt_of_le (by omega) (by omega)

def Machine.exchange (m : Machine) (id : TableId) (i j : Nat) : Machine :=
  (m.write id (.integer (Int64.ofInt i)) ((m.heap.table id).element j)).write id
    (.integer (Int64.ofInt j)) ((m.heap.table id).element i)

section
variable {m : Machine} {id : TableId} {i j : Nat}

theorem plain_exchange (hp : m.heap.Plain id) : (m.exchange id i j).heap.Plain id :=
  (hp.write_position _ _).write_position _ _

theorem table_exchange_of_ne {id' : TableId} (h : id' ≠ id) :
    (m.exchange id i j).heap.table id' = m.heap.table id' := by
  show ((m.heap.write id _ _).write id _ _).table id' = _
  rw [Heap.table_write_of_ne _ h, Heap.table_write_of_ne _ h]

theorem metatable_exchange :
    ((m.exchange id i j).heap.table id).metatable = (m.heap.table id).metatable := by
  show (((m.heap.write id _ _).write id _ _).table id).metatable = _
  rw [Heap.metatable_table_write, Heap.metatable_table_write]

theorem element_exchange (hp : m.heap.Plain id) (hi : i < 2 ^ 63) (hj : j < 2 ^ 63) :
    ((m.exchange id i j).heap.table id).element = exchanged (m.heap.table id).element i j := by
  have hwf := hp.wellFormed
  show (((m.heap.write id _ _).write id _ _).table id).element = _
  rw [Heap.table_write_self, Heap.table_write_self]
  funext k
  rw [Table.element_setKey (hwf.setKey_integer _ _) (toInt_position hj),
    Table.element_setKey hwf (toInt_position hi)]
  unfold exchanged
  by_cases hki : k = i
  · rw [if_pos hki, if_pos hki]
    by_cases hkj : k = j
    · rw [if_pos hkj, ← hki, ← hkj]
    · rw [if_neg hkj]
  · rw [if_neg hki, if_neg hki]

theorem getKey_exchange (hp : m.heap.Plain id) {k : Key} (hi : k ≠ .integer (Int64.ofInt i))
    (hj : k ≠ .integer (Int64.ofInt j)) :
    ((m.exchange id i j).heap.table id).getKey k = (m.heap.table id).getKey k := by
  have hwf := hp.wellFormed
  show (((m.heap.write id _ _).write id _ _).table id).getKey k = _
  rw [Heap.table_write_self, Heap.table_write_self, Table.getKey_setKey (hwf.setKey_integer _ _),
    if_neg (Ne.symm hj), Table.getKey_setKey hwf, if_neg (Ne.symm hi)]

variable (call : Caller) (comparator : Option Value)

theorem listSlots_get (hp : m.heap.Plain id) (hi : i < 2 ^ 63) :
    ((listSlots call id comparator).get i).run m =
      if m.limits.maxMetaChain = 0 then .error ⟨.readChainTooLong, []⟩ m
      else .ok ((m.heap.table id).element i) m := by
  rw [Table.element_eq _ (toInt_position hi)]
  exact EvalM.index_plain call hp _

theorem listSlots_set (hp : m.heap.Plain id) (hm : m.limits.maxMetaChain ≠ 0) (v : Value) :
    ((listSlots call id comparator).set i v).run m =
      .ok () (m.write id (.integer (Int64.ofInt i)) v) := by
  have h := EvalM.setIndex_plain call hp (Key.ofValue?_integer (Int64.ofInt i)) v
  rw [if_neg hm] at h
  exact h

theorem listSlots_swap (hp : m.heap.Plain id) (hi : i < 2 ^ 63) (hj : j < 2 ^ 63) :
    ((listSlots call id comparator).swap i j).run m =
      if m.limits.maxMetaChain = 0 then .error ⟨.readChainTooLong, []⟩ m
      else .ok () (m.exchange id i j) := by
  rw [Slots.swap, run_bind, listSlots_get call comparator hp hi]
  by_cases hm : m.limits.maxMetaChain = 0
  · rw [if_pos hm, if_pos hm]
  · rw [if_neg hm, if_neg hm]
    show ((_ >>= fun _ => _ : EvalM Unit)).run m = _
    rw [run_bind, listSlots_get call comparator hp hj, if_neg hm]
    show ((_ >>= fun _ => _ : EvalM Unit)).run m = _
    rw [run_bind, listSlots_set call comparator hp hm]
    have hwritten := hp.write_position (Int64.ofInt i) ((m.heap.table id).element j)
    exact listSlots_set (m := m.write id _ _) call comparator hwritten hm _

end

/-! ## what a sort keeps -/

/-- From `m` to `t` the table has stayed plain, its elements `1, ..., n` have been permuted, and the
rest of it is as it was. -/
structure Kept (id : TableId) (n : Nat) (m t : Machine) : Prop where
  plain : t.heap.Plain id
  arranged : Arranged (Slots.Within 1 n) (m.heap.table id).element (t.heap.table id).element
  others : ∀ k : Key, (∀ i : Int64, 1 ≤ i.toInt → i.toInt ≤ n → k ≠ .integer i) →
    (t.heap.table id).getKey k = (m.heap.table id).getKey k
  metatable : (t.heap.table id).metatable = (m.heap.table id).metatable

namespace Kept

variable {id : TableId} {n : Nat} {m t t' : Machine}

theorem refl (hp : m.heap.Plain id) : Kept id n m m :=
  ⟨hp, Arranged.refl _ _, fun _ _ => rfl, rfl⟩

theorem of_table_eq (h : Kept id n m t) (htable : t'.heap.table id = t.heap.table id)
    (hp : t'.heap.Plain id) : Kept id n m t' where
  plain := hp
  arranged := htable ▸ h.arranged
  others := htable ▸ h.others
  metatable := htable ▸ h.metatable

theorem exchange (h : Kept id n m t) (hn : n < 2 ^ 63) {i j : Nat} (hi : 1 ≤ i ∧ i ≤ n)
    (hj : 1 ≤ j ∧ j ≤ n) : Kept id n m (t.exchange id i j) where
  plain := plain_exchange h.plain
  arranged := by
    rw [element_exchange h.plain (by omega) (by omega)]
    exact h.arranged.trans (Arranged.exchanged _ hi hj)
  others k hk := by
    have hkey : ∀ p, 1 ≤ p ∧ p ≤ n → k ≠ .integer (Int64.ofInt (p : Nat)) := by
      intro p hp
      have hpos := toInt_position (i := p) (by omega)
      exact hk _ (by omega) (by omega)
    rw [getKey_exchange h.plain (hkey i hi) (hkey j hj)]
    exact h.others k hk
  metatable := by
    rw [metatable_exchange]
    exact h.metatable

theorem rearranged (h : Kept id n m t) {lo hi : Nat}
    (hperm : Arranged (Slots.Within lo hi) (m.heap.table id).element (t.heap.table id).element) :
    (m.heap.table id).Rearranged lo hi (t.heap.table id) where
  perm := by
    refine hperm.map_perm List.nodup_range' fun i => ?_
    rw [List.mem_range'_1, Slots.Within]
    omega
  others k hk := by
    by_cases hin : ∃ i : Int64, 1 ≤ i.toInt ∧ i.toInt ≤ n ∧ k = .integer i
    · obtain ⟨i, hi₁, hin, rfl⟩ := hin
      have hplace : i.toInt = (i.toInt.toNat : Nat) := by omega
      have hout : ¬Slots.Within lo hi i.toInt.toNat := by
        intro hw
        have hlow := hw.1
        have hhigh := hw.2
        exact hk i (by omega) (by omega) rfl
      have hsame := hperm.eq_of_not hout
      rw [Table.element_eq _ hplace, Table.element_eq _ hplace] at hsame
      exact hsame
    · exact h.others k fun i hi₁ hi₂ e => hin ⟨i, hi₁, hi₂, e⟩
  metatable := h.metatable

theorem element_mem (h : Kept id n m t) {i : Nat} (hi : 1 ≤ i ∧ i ≤ n) :
    (t.heap.table id).element i ∈ (m.heap.table id).range 1 n := by
  obtain ⟨j, hj, e⟩ := h.arranged.exists_eq hi
  exact Table.mem_range.mpr ⟨j, hj.1, hj.2, e.symm⟩

end Kept

/-- the states that follow on one another when values with `V` are asked about and the slots
`1, ..., n` are exchanged, in any order and without a failure so far -/
inductive Slots.Meets {σ : Type} (slots : Slots σ) (n : Nat) (V : Value → Prop) (s : σ) : σ → Prop
  | start : Meets slots n V s s
  | asked {t t' : σ} {a b : Value} {less : Bool} : Meets slots n V s t → V a → V b →
      (slots.less a b).run t = .ok less t' → Meets slots n V s t'
  | exchanged {t t' : σ} {i j : Nat} : Meets slots n V s t → 1 ≤ i → i ≤ n → 1 ≤ j → j ≤ n →
      (slots.swap i j).run t = .ok () t' → Meets slots n V s t'

/-- where questions change nothing, a plain table stays plain, and so does what no exchange touches -/
theorem Slots.Meets.of_unchanged {call : Caller} {id : TableId} {comparator : Option Value} {n : Nat}
    {V : Value → Prop} {I : Machine → Prop} {m t : Machine}
    (h : Meets (listSlots call id comparator) n V m t) (hn : n < 2 ^ 63) (hp : m.heap.Plain id)
    (hm : I m)
    (hask : ∀ t, I t → ∀ a b, V a → V b →
      finalState (((Machine.host call).precedes comparator a b).run t) = t)
    (hexchange : ∀ t i j, I t → I (t.exchange id i j)) : t.heap.Plain id ∧ I t := by
  induction h with
  | start => exact ⟨hp, hm⟩
  | @asked t t' a b less _ ha hb hr ih =>
    have hsame := hask t ih.2 a b ha hb
    have hr : ((Machine.host call).precedes comparator a b).run t = .ok less t' := hr
    rw [hr] at hsame
    have hsame : t' = t := hsame
    rw [hsame]
    exact ih
  | @exchanged t t' i j _ hi hin hj hjn hr ih =>
    rw [listSlots_swap call comparator ih.1 (by omega) (by omega)] at hr
    split at hr
    · cases hr
    · cases hr
      exact ⟨plain_exchange ih.1, hexchange t i j ih.2⟩

/-! ## the two ways to sort a table -/

def comparatorValue (comparator : Option FunctionId) : Value :=
  (comparator.map Value.function).getD .nil

theorem collectionWithBorder_table (call : Caller) (id : TableId) (m : Machine) (position : Nat)
    (function : String) (required : Capabilities) :
    ((Machine.host call).collectionWithBorder (some (.table id)) position function required).run m
      = .ok (.native id, Int64.ofNat (m.heap.table id).border) m := rfl

theorem sort_run (call : Caller) (id : TableId) (comparator : Option FunctionId) (m : Machine) :
    ((Machine.host call).sort (.table id) (comparatorValue comparator)).run m =
      ((Collection.native id).sortElements (Machine.host call)
        (Int64.ofNat (m.heap.table id).border) (comparator.map .function)).run m := by
  rw [Host.sort, run_bind, collectionWithBorder_table]
  cases comparator with
  | none => simp only [comparatorValue, Option.map_none, Option.getD_none]
  | some f => simp only [comparatorValue, Option.map_some, Option.getD_some]

theorem library_sort_run {call : Caller} {id : TableId} {comparator : Option FunctionId}
    {args : List Value} (hlist : argument? args 1 = some (.table id))
    (hcomparator : argumentOrNil args 2 = comparatorValue comparator) (m : Machine) :
    ((Machine.host call).library .sort args).run m =
      ((Collection.native id).sortElements (Machine.host call)
        (Int64.ofNat (m.heap.table id).border) (comparator.map .function)
        >>= fun _ => pure []).run m := by
  have hoptional : (optionalFunction "sort" args 2 : EvalM (Option Value))
      = pure (comparator.map .function) := by
    rw [optionalFunction, hcomparator]
    cases comparator <;> rfl
  rw [Host.library, Host.sortFunction, hlist, run_bind, collectionWithBorder_table]
  simp only [hoptional, pure_bind]

/-- what sorting the slots does is what the operation and the function of the library do -/
theorem ends_sort {call : Caller} {id : TableId} {comparator : Option FunctionId} {m : Machine}
    {Q : Machine → Prop} {E : Error → Machine → Prop}
    (hshort : (m.heap.table id).count ≤ 1 → Q m)
    (hlong : Collection.sortableBorder ≤ (m.heap.table id).count →
      E ⟨.badArgument 1 "sort" .arrayTooBig, []⟩ m)
    (hsort : Ends (· = m) ((listSlots call id (comparator.map .function)).sort
      (m.heap.table id).count) (fun _ => Q) E) :
    Ends (· = m) ((Machine.host call).sort (.table id) (comparatorValue comparator))
      (fun _ => Q) E ∧
    ∀ args, argument? args 1 = some (.table id) →
      argumentOrNil args 2 = comparatorValue comparator →
      Ends (· = m) ((Machine.host call).library .sort args) (fun _ => Q) E := by
  have helements : Ends (· = m) ((Collection.native id).sortElements (Machine.host call)
      (Int64.ofNat (m.heap.table id).border) (comparator.map .function)) (fun _ => Q) E := by
    unfold Collection.sortElements
    have hcount : (m.heap.table id).count = (Int64.ofNat (m.heap.table id).border).toInt.toNat :=
      rfl
    by_cases h₁ : (Int64.ofNat (m.heap.table id).border).toInt ≤ 1
    · rw [if_pos h₁]
      exact Ends.pure fun s hs => hs ▸ hshort (by omega)
    · rw [if_neg h₁]
      by_cases h₂ : Collection.sortableBorder ≤ (Int64.ofNat (m.heap.table id).border).toInt
      · rw [if_pos h₂]
        exact Ends.fail fun s hs => hs ▸ hlong (by omega)
      · rw [if_neg h₂]
        exact hsort
  constructor
  · exact helements.of_run_eq (sort_run call id comparator m)
  · intro args hlist hcomparator
    refine Ends.of_run_eq ?_ (library_sort_run hlist hcomparator m)
    exact helements.bind fun _ => Ends.pure fun _ hs => hs

end ScriptTables
