import ScriptTables.Proofs.Sort.Native
import ScriptTables.Proofs.Sort.Range
import ScriptTables.Proofs.Value.Order
import ScriptTables.Script.Report

/-!
# A sort sorts

When a comparator always answers, and its answers on the elements are those of a strict weak order, a
sort of a plain table puts the elements in that order.  The only other way for it to end is that no
link of a chain may be looked at; then not even a raw element can be read.

* `Answering`     a comparator that answers as an order tells, and leaves the table alone;
* `OnlySorted`    what has happened to a table;
* `NoLink`        the one failure;
* `sort_orders`   a sort of any range with any budget, and both ways to sort a table.
-/

namespace ScriptTables

/-- a question about two elements is answered as `lt` tells and leaves the table as it is and without
hooks, whatever was asked and exchanged before -/
def Answering (call : Caller) (id : TableId) (comparator : Option Value)
    (lt : Value → Value → Bool) (m : Machine) : Prop :=
  let elements := (m.heap.table id).range 1 (m.heap.table id).count
  ∀ t, Slots.Meets (listSlots call id comparator) (m.heap.table id).count (· ∈ elements) m t →
    ∀ a ∈ elements, ∀ b ∈ elements,
      ∃ t', ((Machine.host call).precedes comparator a b).run t = .ok (lt a b) t' ∧
        t'.heap.table id = t.heap.table id ∧ (t.heap.Plain id → t'.heap.Plain id)

structure OnlySorted (id : TableId) (lt : Value → Value → Bool) (lo hi : Nat) (m m' : Machine) :
    Prop where
  /-- no later element belongs before an earlier one -/
  ordered : Ordered lt lo hi (m'.heap.table id).element
  elements : (m.heap.table id).Rearranged lo hi (m'.heap.table id)

def NoLink (e : Error) (m : Machine) : Prop :=
  e = ⟨.readChainTooLong, []⟩ ∧ m.limits.maxMetaChain = 0

section
variable {call : Caller} {id : TableId} {comparator : Option Value} {lt : Value → Value → Bool}
  {m : Machine}

/-- The positions `first, ..., last` of a plain table can be sorted, where `I` is true of all states
on the way and questions are answered as an order tells. -/
theorem sortable_positions {V : Value → Prop} {I : Machine → Prop} {first last : Nat}
    (hlast : last < 2 ^ 63) (hlt : StrictWeak V lt) (hplain : ∀ t, I t → t.heap.Plain id)
    (hvalues : ∀ t, I t → ∀ i, first ≤ i → i ≤ last → V ((t.heap.table id).element i))
    (hexchange : ∀ t i j, I t → first ≤ i ∧ i ≤ last → first ≤ j ∧ j ≤ last →
      ((listSlots call id comparator).swap i j).run t = .ok () (t.exchange id i j) →
        I (t.exchange id i j))
    (hask : ∀ t a b, I t → V a → V b →
      ∃ t', ((listSlots call id comparator).less a b).run t = .ok (lt a b) t' ∧
        t'.heap.table id = t.heap.table id ∧ I t') :
    Slots.Sortable (listSlots call id comparator) first last
      (fun t f => I t ∧ (t.heap.table id).element = f) V lt NoLink where
  strictWeak := hlt
  values t f ht i hi hin := ht.2 ▸ hvalues t ht.1 i hi hin
  get f i hi hin := by
    intro t ht
    rw [listSlots_get call comparator (hplain t ht.1) (by omega)]
    by_cases hm : t.limits.maxMetaChain = 0
    · rw [if_pos hm]
      exact ⟨rfl, hm⟩
    · rw [if_neg hm]
      exact ⟨congrFun ht.2 i, ht⟩
  swap f i j hi hin hj hjn := by
    intro t ht
    have hp := hplain t ht.1
    have hswap := listSlots_swap call comparator hp (i := i) (j := j) (by omega) (by omega)
    rw [hswap]
    by_cases hm : t.limits.maxMetaChain = 0
    · rw [if_pos hm]
      exact ⟨rfl, hm⟩
    · rw [if_neg hm] at hswap ⊢
      refine ⟨hexchange t i j ht.1 ⟨hi, hin⟩ ⟨hj, hjn⟩ hswap, ?_⟩
      rw [element_exchange hp (by omega) (by omega), ht.2]
  less f a b ha hb := by
    intro t ht
    obtain ⟨t', hless, htable, ht'⟩ := hask t a b ht.1 ha hb
    rw [hless]
    exact ⟨rfl, ht', htable ▸ ht.2⟩

theorem sortable_listSlots
    (hlt : StrictWeak (· ∈ (m.heap.table id).range 1 (m.heap.table id).count) lt)
    (hask : Answering call id comparator lt m) :
    Slots.Sortable (listSlots call id comparator) 1 (m.heap.table id).count
      (fun t f => (Kept id (m.heap.table id).count m t ∧
        Slots.Meets (listSlots call id comparator) (m.heap.table id).count
          (· ∈ (m.heap.table id).range 1 (m.heap.table id).count) m t) ∧
        (t.heap.table id).element = f)
      (· ∈ (m.heap.table id).range 1 (m.heap.table id).count) lt NoLink := by
  have hn := (m.heap.table id).count_lt
  refine sortable_positions hn hlt (fun t ht => ht.1.plain)
    (fun t ht i hi hin => ht.1.element_mem ⟨hi, hin⟩) (fun t i j ht hi hj hswap => ?_)
    fun t a b ht ha hb => ?_
  · exact ⟨ht.1.exchange hn hi hj, ht.2.exchanged hi.1 hi.2 hj.1 hj.2 hswap⟩
  · obtain ⟨t', hless, htable, hplain⟩ := hask t ht.2 a ha b hb
    exact ⟨t', hless, htable, ht.1.of_table_eq htable (hplain ht.1.plain), ht.2.asked ha hb hless⟩

end

/-- **A sort by a strict weak order puts any range in order, with any budget, and so do both ways to
sort a table.** -/
theorem sort_orders (call : Caller) (id : TableId) (comparator : Option FunctionId)
    (lt : Value → Value → Bool) (m : Machine) (hp : m.heap.Plain id)
    (hlt : StrictWeak (· ∈ (m.heap.table id).range 1 (m.heap.table id).count) lt)
    (hask : Answering call id (comparator.map .function) lt m)
    (hn : (m.heap.table id).count < Collection.sortableBorder) :
    (∀ depth lo hi, 1 ≤ lo → hi ≤ (m.heap.table id).count →
      Ends (· = m) ((listSlots call id (comparator.map .function)).sortRange depth lo hi)
        (fun _ => OnlySorted id lt lo hi m) NoLink) ∧
    Ends (· = m) ((Machine.host call).sort (.table id) (comparatorValue comparator))
      (fun _ => OnlySorted id lt 1 (m.heap.table id).count m) NoLink ∧
    ∀ args, argument? args 1 = some (.table id) →
      argumentOrNil args 2 = comparatorValue comparator →
      Ends (· = m) ((Machine.host call).library .sort args)
        (fun _ => OnlySorted id lt 1 (m.heap.table id).count m) NoLink := by
  have hrange : ∀ depth lo hi, 1 ≤ lo → hi ≤ (m.heap.table id).count →
      Ends (· = m) ((listSlots call id (comparator.map .function)).sortRange depth lo hi)
        (fun _ => OnlySorted id lt lo hi m) NoLink := by
    intro depth lo hi hlo hhi
    have hsort := (sortable_listSlots hlt hask).sortRange depth lo hi (m.heap.table id).element
      hlo hhi
    refine Ends.mono hsort (fun s hs => ?_) (fun _ t ht => ?_) fun _ _ he => he
    · subst hs
      exact ⟨⟨Kept.refl hp, Slots.Meets.start⟩, rfl⟩
    · obtain ⟨g, hg, hshows, rfl⟩ := ht
      exact ⟨hg.2, hshows.1.rearranged hg.1⟩
  refine ⟨hrange, ends_sort (fun hshort => ?_) (fun hlong => absurd hn (by omega)) ?_⟩
  · refine ⟨Ordered.of_le lt hshort _, ?_⟩
    exact (Kept.refl hp : Kept id 1 m m).rearranged (Arranged.refl _ _)
  · exact hrange _ 1 _ (Nat.le_refl 1) (Nat.le_refl _)

/-! ## a list of integers -/

theorem strictWeak_integer : StrictWeak (fun v => ∃ n : Int64, v = .integer n) below :=
  strictWeak_numbers.mono fun _ ⟨n, hv⟩ => ⟨.ofRat n.toInt, by rw [hv]; rfl⟩

theorem answering_integers {call : Caller} {id : TableId} {m : Machine}
    (hm : ∀ v ∈ (m.heap.table id).range 1 (m.heap.table id).count, ∃ n : Int64, v = .integer n) :
    Answering call id none below m := by
  intro t _ v hv w hw
  obtain ⟨a, rfl⟩ := hm v hv
  obtain ⟨b, rfl⟩ := hm w hw
  exact ⟨t, rfl, rfl, fun h => h⟩

def unsorted : Machine where
  heap := ({} : Heap).pushTable (.ofList [.integer 3, .integer 1, .integer 2])
  globals := ⟨0⟩
  limits := {}

theorem plain_unsorted : unsorted.heap.Plain ⟨0⟩ := ⟨Table.WellFormed.ofList _, rfl, rfl⟩

theorem integer_of_mem_unsorted :
    ∀ v ∈ (unsorted.heap.table ⟨0⟩).range 1 (unsorted.heap.table ⟨0⟩).count,
      ∃ n : Int64, v = .integer n := by
  have helements : (unsorted.heap.table ⟨0⟩).range 1 (unsorted.heap.table ⟨0⟩).count
      = [.integer 3, .integer 1, .integer 2] := by decide
  rw [helements]
  simp

theorem sort_orders_unsorted :
    unsorted.heap.Plain ⟨0⟩ ∧
    Ends (· = unsorted) ((Machine.host EvalM.call).sort (.table ⟨0⟩) .nil)
      (fun _ => OnlySorted ⟨0⟩ below 1 3 unsorted) NoLink :=
  ⟨plain_unsorted,
    (sort_orders EvalM.call ⟨0⟩ none below unsorted plain_unsorted
      (strictWeak_integer.mono integer_of_mem_unsorted)
      (answering_integers integer_of_mem_unsorted) (by decide)).2.1⟩

end ScriptTables
