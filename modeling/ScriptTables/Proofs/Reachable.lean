import ScriptTables.Proofs.Script.Lasting
import ScriptTables.Proofs.Table.Border

/-!
# The tables of every state that can be reached

That all tables are well-formed lasts, so it is true of every state that a script can reach, in the
middle of calls too and after steps that failed.

* `Reachable`             the states;
* `Reachable.lasts`       what lasts is true of them;
* `lasting_wellFormed`    one change of the heap keeps all tables well-formed;
* `tables_of_reachable`   what is true of every table of a reachable state.
-/

namespace ScriptTables

/-- The states that steps lead to, whether they succeed or fail.  A step may run from outside of all
calls, or with so many levels of calls left; an access or an operation of the library is a step too.
What is not on the heap may be anything. -/
inductive Reachable : Machine → Prop
  | start (limits : Limits) : Reachable (Machine.start limits)
  | step {m : Machine} (s : Step) : Reachable m →
      Reachable (finalState ((runStep EvalM.call s).run m))
  | nested {m : Machine} (level : Nat) (s : Step) : Reachable m →
      Reachable (finalState ((runStep (EvalM.callAt level) s).run m))
  | beside {m m' : Machine} : Reachable m → m'.heap = m.heap → Reachable m'

theorem Reachable.lasts {P : Heap → Prop} {m : Machine} (h : Reachable m)
    (hP : Lasting fun m => P m.heap) (hstart : ∀ limits, P (Machine.start limits).heap) :
    P m.heap := by
  induction h with
  | start limits => exact hstart limits
  | step s _ ih => exact keeps_iff.mp (hP.runStep hP.call s) _ ih
  | nested level s _ ih => exact keeps_iff.mp (hP.runStep (hP.callAt level) s) _ ih
  | beside _ hheap ih =>
    rw [hheap]
    exact ih

/-- a program is reported from reachable states -/
theorem Reachable.answerStep {m : Machine} (h : Reachable m) (watch : List String) (s : Step) :
    Reachable (answerStep watch s m).2 := by
  have hcleared : Reachable m.clearLog := h.beside rfl
  have hstep := hcleared.step s
  unfold ScriptTables.answerStep
  cases hr : (runStep EvalM.call s).run m.clearLog <;> rw [hr] at hstep <;> exact hstep

/-! ## all tables -/

theorem Heap.Change.wellFormed {h h' : Heap} (hc : h.Change h')
    (hh : ∀ id, (h.table id).WellFormed) (id : TableId) : (h'.table id).WellFormed := by
  cases hc with
  | newTable t ht =>
    rw [Heap.table_pushTable]
    split
    · exact ht
    · exact hh id
  | copyTable id' =>
    rw [Heap.table_pushTable]
    split
    · exact hh id'
    · exact hh id
  | newFunction f => exact hh id
  | newUserdata u => exact hh id
  | write id' k v hk =>
    by_cases he : id = id'
    · rw [he, Heap.table_write_self]
      exact (hh id').setKey hk v
    · rw [Heap.table_write_of_ne h he]
      exact hh id
  | setMetatable id' metatable =>
    rw [Heap.table_modifyTable]
    split
    · exact (hh id').with_metatable metatable
    · exact hh id
  | setUserdataMetatable id' metatable => exact hh id

theorem lasting_wellFormed : Lasting fun m => ∀ id, (m.heap.table id).WellFormed where
  heap _ _ hc hm := hc.wellFormed hm
  session _ _ hm := hm
  depth _ _ hm := hm

theorem wellFormed_start (limits : Limits) (id : TableId) :
    ((Machine.start limits).heap.table id).WellFormed := by
  show ((({} : Heap).pushTable {}).table id).WellFormed
  rw [Heap.table_pushTable]
  split
  · exact Table.WellFormed.empty
  · exact Table.WellFormed.empty

theorem Reachable.wellFormed {m : Machine} (h : Reachable m) (id : TableId) :
    (m.heap.table id).WellFormed :=
  h.lasts (P := fun heap => ∀ id, (heap.table id).WellFormed) lasting_wellFormed
    wellFormed_start id

/-- **In every reachable state every table is well-formed, so that its border is one, its places count
its keys, and keys that leave no choice determine the border.** -/
theorem tables_of_reachable {m : Machine} (h : Reachable m) (id : TableId) :
    (m.heap.table id).WellFormed ∧
    ∀ n : Int64, n.toInt = (m.heap.table id).border →
      ((n = 0 ∨ (m.heap.table id).getInteger n ≠ .nil) ∧
        ∀ k : Int64, k.toInt = n.toInt + 1 → (m.heap.table id).getInteger k = .nil) ∧
      (∃ keys : List Key, keys.Nodup ∧ (∀ k, k ∈ keys ↔ (m.heap.table id).getKey k ≠ .nil) ∧
        keys.length = (m.heap.table id).entryCount
          + (m.heap.table id).elements.countP fun v => !v.isNil) ∧
      ∀ last : Int64, 0 ≤ last.toInt →
        (∀ k : Int64, 1 ≤ k.toInt →
          ((m.heap.table id).getInteger k ≠ .nil ↔ k.toInt ≤ last.toInt)) → n = last := by
  have ht := h.wellFormed id
  refine ⟨ht, fun n hn => ⟨⟨ht.at_border hn, fun k hk => ?_⟩, ?_, fun last h₀ hkeys => ?_⟩⟩
  · exact ht.behind_border (by omega)
  · have hfits := n.toInt_lt
    exact ht.exists_keys (by omega)
  · exact ht.border_eq hn h₀ hkeys

def clearing : Step :=
  .mk (.ternary .rawSet
    (.table [.single (.value (.integer 1)), .single (.value .nil), .single (.value (.integer 3))]
      [] none) (.value (.integer 3)) (.value .nil)) none

/-- the state that this step leads to; the list is the second table of it -/
def cleared : Machine := finalState ((runStep EvalM.call clearing).run (Machine.start {}))

theorem tables_of_reachable_cleared :
    Reachable cleared ∧ (cleared.heap.table ⟨1⟩).WellFormed ∧
      (cleared.heap.table ⟨1⟩).border = 1 :=
  have h : Reachable cleared := .step clearing (.start {})
  ⟨h, (tables_of_reachable h ⟨1⟩).1, rfl⟩

end ScriptTables
