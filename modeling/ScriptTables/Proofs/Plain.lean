import ScriptTables.Machine.Access
import ScriptTables.Table.Lemmas

/-!
# Tables without hooks

A table whose metatable holds no hook for reading and none for writing is read and written raw.  The
one limit that still counts is that of the chain of metatables: the table itself is its first link.

* `Heap.Plain`                          such a table;
* `EvalM.index_table`, `setIndex_table` what reading and writing without hooks do;
* `Heap.Plain.write`                    it stays one when an element of a table is written, be that
                                        its metatable or the table itself.
-/

namespace ScriptTables

/-! ## writes and metatables -/

namespace Table

theorem metatable_migrate (n : Nat) (t : Table) : (migrate n t).metatable = t.metatable := by
  induction n generalizing t with
  | zero => rfl
  | succ n ih =>
    cases h : t.nextEntry? with
    | none => rw [migrate_of_none h]
    | some p =>
      obtain ⟨k, v⟩ := p
      rw [migrate_of_some h, ih]

theorem metatable_setKey (t : Table) (k : Key) (v : Value) :
    (t.setKey k v).metatable = t.metatable := by
  cases k with
  | integer n =>
    show (t.setInteger n v).metatable = t.metatable
    rcases setInteger_cases t n v with h | h | h
    · rw [h.2.2]
      rfl
    · rw [h.2.2, append_eq, metatable_migrate]
      rfl
    · rw [h.2.2]
      rfl
  | _ => rfl

theorem WellFormed.with_metatable {t : Table} (ht : t.WellFormed) (metatable : Option TableId) :
    { t with metatable := metatable }.WellFormed :=
  ⟨ht.back_ne_nil, ht.entry_ne_nil, ht.no_near_entry, ht.entry_normal⟩

end Table

def Heap.write (h : Heap) (id : TableId) (k : Key) (v : Value) : Heap :=
  h.modifyTable id fun t => t.setKey k v

namespace Heap

variable {h : Heap} {id : TableId} {k : Key} {v : Value}

theorem table_write_self (h : Heap) (id : TableId) (k : Key) (v : Value) :
    (h.write id k v).table id = (h.table id).setKey k v := by
  rw [write, table_modifyTable, if_pos rfl]

theorem table_write_of_ne (h : Heap) {id id' : TableId} (hne : id' ≠ id) (k : Key) (v : Value) :
    (h.write id k v).table id' = h.table id' := by
  rw [write, table_modifyTable, if_neg (Ne.symm hne)]

theorem metatable_table_write (h : Heap) (id : TableId) (k : Key) (v : Value) (id' : TableId) :
    ((h.write id k v).table id').metatable = (h.table id').metatable := by
  by_cases he : id' = id
  · rw [he, table_write_self, Table.metatable_setKey]
  · rw [table_write_of_ne h he]

theorem metatable?_write (h : Heap) (id : TableId) (k : Key) (v object : Value) :
    (h.write id k v).metatable? object = h.metatable? object := by
  cases object with
  | table id' => exact metatable_table_write h id k v id'
  | _ => rfl

theorem metamethod_congr {h h' : Heap} {object : Value} {event : String}
    (hmeta : h'.metatable? object = h.metatable? object)
    (hfield : ∀ mt, h.metatable? object = some mt →
      (h'.table mt).getString event = (h.table mt).getString event) :
    h'.metamethod object event = h.metamethod object event := by
  rw [metamethod, metamethod, hmeta]
  cases hmt : h.metatable? object with
  | none => rfl
  | some mt => exact hfield mt hmt

/-- a hook only changes when a table is written under the name of the hook -/
theorem metamethod_write (hid : (h.table id).WellFormed) {event : String} (hk : k ≠ .string event)
    (object : Value) :
    (h.write id k v).metamethod object event = h.metamethod object event := by
  refine metamethod_congr (metatable?_write h id k v object) fun mt _ => ?_
  by_cases he : mt = id
  · rw [he, table_write_self]
    show ((h.table id).setKey k v).getKey (.string event) = _
    rw [Table.getKey_setKey hid, if_neg hk]
    rfl
  · rw [table_write_of_ne h he]

/-! ## plain tables -/

structure Plain (h : Heap) (id : TableId) : Prop where
  wellFormed : (h.table id).WellFormed
  reading : h.metamethod (.table id) indexHook = .nil
  writing : h.metamethod (.table id) newIndexHook = .nil

theorem metamethod_position (hid : (h.table id).WellFormed) (i : Int64) (v object : Value)
    (event : String) :
    (h.write id (.integer i) v).metamethod object event = h.metamethod object event :=
  metamethod_write hid (k := .integer i) nofun object

theorem Plain.write {id' : TableId} (hp : h.Plain id') (hid : (h.table id).WellFormed) (i : Int64)
    (v : Value) : (h.write id (.integer i) v).Plain id' where
  wellFormed := by
    by_cases he : id' = id
    · rw [he, table_write_self]
      exact hid.setKey (k := .integer i) trivial v
    · rw [table_write_of_ne h he]
      exact hp.wellFormed
  reading := by rw [metamethod_position hid, hp.reading]
  writing := by rw [metamethod_position hid, hp.writing]

theorem Plain.write_position (hp : h.Plain id) (i : Int64) (v : Value) :
    (h.write id (.integer i) v).Plain id := hp.write hp.wellFormed i v

theorem readLink_table (hreading : h.metamethod (.table id) indexHook = .nil) (key : Value) :
    h.readLink (.table id) key = .stop ((h.table id).get key) := by
  simp only [Heap.readLink, hreading]
  by_cases hraw : ((h.table id).get key).isNil = true
  · rw [if_pos hraw, Value.isNil_iff.mp hraw]
    rfl
  · rw [if_neg hraw]

theorem writeLink_table (hwriting : h.metamethod (.table id) newIndexHook = .nil) (key : Value) :
    h.writeLink (.table id) key = .stop id := by
  simp only [Heap.writeLink, hwriting]
  by_cases hraw : ((h.table id).get key).isNil = true
  · rw [if_pos hraw]
    rfl
  · rw [if_neg hraw]

end Heap

/-! ## access -/

def Machine.write (m : Machine) (id : TableId) (k : Key) (v : Value) : Machine :=
  { m with heap := m.heap.write id k v }

namespace EvalM

variable (call : Caller) {m : Machine} {id : TableId}

theorem index_table (hreading : m.heap.metamethod (.table id) indexHook = .nil) (key : Value) :
    (index call (.table id) key).run m =
      if m.limits.maxMetaChain = 0 then .error ⟨.readChainTooLong, []⟩ m
      else .ok ((m.heap.table id).get key) m := by
  show (indexFrom call key m.limits.maxMetaChain (.table id)).run m = _
  cases m.limits.maxMetaChain with
  | zero => rfl
  | succ links =>
    have hlink : (readHeap fun h => h.readLink (.table id) key).run m
        = .ok (.stop ((m.heap.table id).get key)) m :=
      congrArg (EStateM.Result.ok · m) (Heap.readLink_table hreading key)
    rw [indexFrom, run_bind_of_ok hlink]
    rfl

theorem setIndex_table (hwriting : m.heap.metamethod (.table id) newIndexHook = .nil) {key : Value}
    {k : Key} (hk : Key.ofValue? key = .ok k) (v : Value) :
    (setIndex call (.table id) key v).run m =
      if m.limits.maxMetaChain = 0 then .error ⟨.writeChainTooLong, []⟩ m
      else .ok () (m.write id k v) := by
  show (setIndexFrom call key v m.limits.maxMetaChain (.table id)).run m = _
  cases m.limits.maxMetaChain with
  | zero => rfl
  | succ links =>
    have hlink : (readHeap fun h => h.writeLink (.table id) key).run m = .ok (.stop id) m :=
      congrArg (EStateM.Result.ok · m) (Heap.writeLink_table hwriting key)
    rw [setIndexFrom, run_bind_of_ok hlink]
    show (rawSet id key v).run m = _
    rw [rawSet_of_ok hk]
    rfl

theorem index_plain (hp : m.heap.Plain id) (key : Value) :
    (index call (.table id) key).run m =
      if m.limits.maxMetaChain = 0 then .error ⟨.readChainTooLong, []⟩ m
      else .ok ((m.heap.table id).get key) m := index_table call hp.reading key

theorem setIndex_plain (hp : m.heap.Plain id) {key : Value} {k : Key}
    (hk : Key.ofValue? key = .ok k) (v : Value) :
    (setIndex call (.table id) key v).run m =
      if m.limits.maxMetaChain = 0 then .error ⟨.writeChainTooLong, []⟩ m
      else .ok () (m.write id k v) := setIndex_table call hp.writing hk v

end EvalM

end ScriptTables
