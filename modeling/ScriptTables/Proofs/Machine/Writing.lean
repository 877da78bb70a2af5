import ScriptTables.Proofs.Machine.Reading
import ScriptTables.Proofs.Table.Naming

/-!
# Writing along a chain

A write goes from link to link as a read does.  Where its chain ends it writes into one slot of one
table, or calls one function, or fails; so there is at most one slot that the write itself changes.
Where the same tables are the handlers for reading and for writing, a read finds the value that was
written: it goes along the same links, and none of them was changed by the write but the last one.

* `setIndexFrom_link`     behind so many links a write starts over with what is left of the limit;
* `WriteEnds`             how a write ends, by the links of its chain;
* `setIndex_run_iff`      a write ends so, and in no other way;
* `SlotChanged`           two machines that differ in one slot of one table;
* `Heap.TwoWay`           a link whose handlers for reading and for writing are the same table;
* `index_written`, `index_of_setIndex`   what was written is read back;
* `setIndex_follows`      all of it.
-/

namespace ScriptTables

/-! ## one link -/

namespace Heap

variable {h : Heap} {key : Value} {id : TableId}

/-- a table takes a write when it holds the key or has no handler -/
def Takes (h : Heap) (key : Value) (id : TableId) : Prop :=
  h.held (.table id) key ≠ .nil ∨ h.metamethod (.table id) newIndexHook = .nil

theorem Takes.isEnd (htakes : h.Takes key id) : h.IsEnd newIndexHook key (.table id) :=
  htakes.imp_right Or.inl

theorem writeLink_of_takes (htakes : h.Takes key id) : h.writeLink (.table id) key = .stop id := by
  rcases htakes with hheld | hhandler
  · exact if_neg (mt Value.isNil_iff.mp hheld)
  · exact writeLink_table hhandler key

end Heap

/-! ## all links -/

section
variable {call : Caller} {m : Machine} {object key v link : Value} {n : Nat}

/-- by induction on the links that a write has behind it -/
theorem setIndexFrom_link (hlink : m.heap.link? newIndexHook key object n = some link)
    (links : Nat) :
    (EvalM.setIndexFrom call key v (n + links) object).run m
      = (EvalM.setIndexFrom call key v links link).run m := by
  induction n generalizing link links with
  | zero =>
    rw [Nat.zero_add, Option.some.inj hlink]
  | succ n ih =>
    rw [Heap.link?_succ, Option.bind_eq_some_iff] at hlink
    obtain ⟨previous, hprevious, hnext⟩ := hlink
    obtain ⟨hheld, hhandler, hne, hfunction⟩ := Heap.nextLink?_eq_some_iff.mp hnext
    rw [Nat.add_right_comm, Nat.add_assoc, ih hprevious, EvalM.setIndexFrom_succ_run,
      Heap.writeLink_of_handler hheld hhandler hne]
    cases link with
    | function f => exact absurd rfl (hfunction f)
    | _ => rfl

/-- How a write ends.  Each way belongs to the first link at which the chain ends, if there is one
within the limit. -/
inductive WriteEnds (call : Caller) (m : Machine) (object key v : Value) :
    EStateM.Result Error Machine Unit → Prop
  /-- one raw write into a table -/
  | written {n : Nat} {id : TableId} {k : Key} : n < m.limits.maxMetaChain →
      m.heap.link? newIndexHook key object n = some (.table id) → m.heap.Takes key id →
      Key.ofValue? key = .ok k → WriteEnds call m object key v (.ok () (m.write id k v))
  /-- one call of a function, with the link that it is the handler of -/
  | called {n : Nat} {link : Value} {f : FunctionId} : n < m.limits.maxMetaChain →
      m.heap.link? newIndexHook key object n = some link → m.heap.held link key = .nil →
      m.heap.metamethod link newIndexHook = .function f → WriteEnds call m object key v
        ((do let _ ← call (.function f) [link, key, v]; pure () : EvalM Unit).run m)
  /-- the table would take the write, but there is no such key -/
  | unkeyed {n : Nat} {id : TableId} {fault : Fault} : n < m.limits.maxMetaChain →
      m.heap.link? newIndexHook key object n = some (.table id) → m.heap.Takes key id →
      Key.ofValue? key = .error fault → WriteEnds call m object key v (.error ⟨fault, []⟩ m)
  /-- no table and no handler -/
  | refused {n : Nat} {link : Value} : n < m.limits.maxMetaChain →
      m.heap.link? newIndexHook key object n = some link → (∀ id, link ≠ .table id) →
      m.heap.metamethod link newIndexHook = .nil →
      WriteEnds call m object key v (.error ⟨.cannotIndex link.typeName, []⟩ m)
  /-- another link lies behind all that may be looked at -/
  | tooLong : (m.heap.link? newIndexHook key object m.limits.maxMetaChain).isSome →
      WriteEnds call m object key v (.error ⟨.writeChainTooLong, []⟩ m)

theorem setIndex_link (call : Caller) (v : Value) (hn : n < m.limits.maxMetaChain)
    (hlink : m.heap.link? newIndexHook key object n = some link) :
    ∃ rest, (EvalM.setIndex call object key v).run m
      = (EvalM.setIndexFrom call key v (rest + 1) link).run m := by
  obtain ⟨rest, hrest⟩ := Nat.exists_eq_add_of_lt hn
  refine ⟨rest, ?_⟩
  show (EvalM.setIndexFrom call key v m.limits.maxMetaChain object).run m = _
  rw [hrest, Nat.add_assoc, setIndexFrom_link hlink]

theorem setIndex_of_takes {id : TableId} (hn : n < m.limits.maxMetaChain)
    (hlink : m.heap.link? newIndexHook key object n = some (.table id))
    (htakes : m.heap.Takes key id) :
    (EvalM.setIndex call object key v).run m = (EvalM.rawSet id key v).run m := by
  obtain ⟨rest, hrun⟩ := setIndex_link call v hn hlink
  rw [hrun, EvalM.setIndexFrom_succ_run, Heap.writeLink_of_takes htakes]

theorem WriteEnds.run_eq {r : EStateM.Result Error Machine Unit}
    (h : WriteEnds call m object key v r) : (EvalM.setIndex call object key v).run m = r := by
  cases h with
  | written hn hlink htakes hkey =>
    rw [setIndex_of_takes hn hlink htakes, EvalM.rawSet_of_ok hkey]
    rfl
  | called hn hlink hheld hhandler =>
    obtain ⟨rest, hrun⟩ := setIndex_link call v hn hlink
    rw [hrun, EvalM.setIndexFrom_succ_run,
      Heap.writeLink_of_handler hheld hhandler Value.noConfusion]
  | unkeyed hn hlink htakes hkey =>
    rw [setIndex_of_takes hn hlink htakes, EvalM.rawSet_of_error hkey]
    rfl
  | refused hn hlink hother hhandler =>
    obtain ⟨rest, hrun⟩ := setIndex_link call v hn hlink
    rw [hrun, EvalM.setIndexFrom_succ_run, Heap.writeLink_of_not_table hother,
      if_pos (Value.isNil_iff.mpr hhandler)]
  | tooLong hsome =>
    obtain ⟨link, hlink⟩ := Option.isSome_iff_exists.mp hsome
    exact setIndexFrom_link hlink 0

theorem exists_writeEnds (call : Caller) (m : Machine) (object key v : Value) :
    ∃ r, WriteEnds call m object key v r := by
  rcases m.heap.exists_end_or_isSome newIndexHook key object m.limits.maxMetaChain with
    ⟨n, link, hn, hlink, hend⟩ | hsome
  · by_cases htakes : ∃ id, link = .table id ∧ m.heap.Takes key id
    · obtain ⟨id, rfl, htakes⟩ := htakes
      cases hkey : Key.ofValue? key with
      | ok k => exact ⟨_, .written hn hlink htakes hkey⟩
      | error fault => exact ⟨_, .unkeyed hn hlink htakes hkey⟩
    · have hheld : m.heap.held link key = .nil := by
        by_contra hheld
        by_cases htable : ∃ id, link = .table id
        · obtain ⟨id, rfl⟩ := htable
          exact htakes ⟨id, rfl, Or.inl hheld⟩
        · exact hheld (Heap.held_of_not_table (not_exists.mp htable))
      rcases hend with hholds | hhandler | ⟨f, hf⟩
      · exact absurd hheld hholds
      · refine ⟨_, .refused hn hlink ?_ hhandler⟩
        rintro id rfl
        exact htakes ⟨id, rfl, Or.inr hhandler⟩
      · exact ⟨_, .called hn hlink hheld hf⟩
  · exact ⟨_, .tooLong hsome⟩

/-- a write ends in one way, and the links of its chain tell which -/
theorem setIndex_run_iff {r : EStateM.Result Error Machine Unit} :
    (EvalM.setIndex call object key v).run m = r ↔ WriteEnds call m object key v r := by
  refine ⟨fun hrun => ?_, WriteEnds.run_eq⟩
  obtain ⟨r', hends⟩ := exists_writeEnds call m object key v
  rw [← hrun, hends.run_eq]
  exact hends

end

/-! ## one slot -/

/-- two machines that differ in one slot of one table at most -/
structure SlotChanged (id : TableId) (k : Key) (v : Value) (m m' : Machine) : Prop where
  slot : (m'.heap.table id).getKey k = v
  keys : ∀ k', k' ≠ k → (m'.heap.table id).getKey k' = (m.heap.table id).getKey k'
  metatable : (m'.heap.table id).metatable = (m.heap.table id).metatable
  tables : ∀ id', id' ≠ id → m'.heap.table id' = m.heap.table id'
  functions : m'.heap.functions = m.heap.functions
  userdata : m'.heap.userdata = m.heap.userdata
  machine : { m' with heap := m.heap } = m

theorem slotChanged_write {m : Machine} {id : TableId} (hid : (m.heap.table id).WellFormed)
    (k : Key) (v : Value) : SlotChanged id k v m (m.write id k v) where
  slot := by
    show ((m.heap.write id k v).table id).getKey k = v
    rw [Heap.table_write_self, Table.getKey_setKey hid, if_pos rfl]
  keys k' hk' := by
    show ((m.heap.write id k v).table id).getKey k' = _
    rw [Heap.table_write_self, Table.getKey_setKey hid, if_neg (Ne.symm hk')]
  metatable := Heap.metatable_table_write m.heap id k v id
  tables _ hne := Heap.table_write_of_ne m.heap hne k v
  functions := rfl
  userdata := rfl
  machine := rfl

/-! ## reading back -/

/-- a link whose handlers for reading and for writing are the same table, or that has neither -/
def Heap.TwoWay (h : Heap) (link : Value) : Prop :=
  h.metamethod link indexHook = h.metamethod link newIndexHook ∧
    (h.metamethod link newIndexHook = .nil ∨ ∃ id, h.metamethod link newIndexHook = .table id)

theorem Key.eq_of_ofValue?_string {key : Value} {s : String}
    (h : Key.ofValue? key = .ok (.string s)) : key = .string s := by
  refine (Key.toValue_of_ofValue? h ?_).symm
  cases hdenoted : key.denoted? with
  | none => rfl
  | some n =>
    rw [Key.ofValue?_integer_iff.mpr hdenoted] at h
    cases h

section
variable {m : Machine} {object key v link : Value} {n i : Nat} {id : TableId} {k : Key}

theorem held_write_of_link (hlink : m.heap.link? newIndexHook key object n = some (.table id))
    (htakes : m.heap.Takes key id) (hi : i < n)
    (hprevious : m.heap.link? newIndexHook key object i = some link) :
    (m.heap.write id k v).held link key = m.heap.held link key := by
  have hlater : (m.heap.link? newIndexHook key object n).isSome := Option.isSome_of_eq_some hlink
  have hne : link ≠ .table id := by
    rintro rfl
    exact Heap.isSome_link?_iff.mp hlater i _ hi hprevious htakes.isEnd
  cases link with
  | table id' =>
    have hid : id' ≠ id := fun he => hne (he ▸ rfl)
    show ((m.heap.write id k v).table id').get key = _
    rw [Heap.table_write_of_ne m.heap hid]
    rfl
  | _ => rfl

/-- a read goes along the chain of the write, and finds at its end what was written -/
theorem index_written (hid : (m.heap.table id).WellFormed)
    (hlinks : ∀ i link, i < n → m.heap.link? newIndexHook key object i = some link →
      m.heap.TwoWay link)
    (hn : n < m.limits.maxMetaChain)
    (hlink : m.heap.link? newIndexHook key object n = some (.table id))
    (htakes : m.heap.Takes key id) (hkey : Key.ofValue? key = .ok k) (hv : v ≠ .nil)
    (hname : key ≠ .string indexHook) (call : Caller) :
    (EvalM.index call object key).run (m.write id k v) = .ok v (m.write id k v) := by
  have hk : k ≠ .string indexHook := by
    rintro rfl
    exact hname (Key.eq_of_ofValue?_string hkey)
  have hchain : (m.heap.write id k v).link? indexHook key object n = some (.table id) := by
    refine (Heap.link?_congr (fun i link hi hprevious => ⟨?_, ?_⟩) n (Nat.le_refl n)).trans hlink
    · exact held_write_of_link hlink htakes hi hprevious
    · rw [Heap.metamethod_write hid hk]
      exact (hlinks i link hi hprevious).1
  have hheld : (m.heap.write id k v).held (.table id) key = v := by
    show ((m.heap.write id k v).table id).get key = v
    rw [Heap.table_write_self, Table.get_of_ok hkey, Table.getKey_setKey hid, if_pos rfl]
  have hreads : ReadsAt call ((m.write id k v).withLinks m.limits.maxMetaChain) object key
      (.table id) := readsAt_link hn hchain
  have hfound := hreads.held fun hnil => hv (hheld.symm.trans hnil)
  exact hfound.trans (congrArg (EStateM.Result.ok · (m.write id k v)) hheld)

theorem index_of_setIndex {call : Caller} {v : Value} {m' : Machine}
    (hm : ∀ id, (m.heap.table id).WellFormed)
    (hlinks : ∀ n link, n < m.limits.maxMetaChain →
      m.heap.link? newIndexHook key object n = some link → m.heap.TwoWay link)
    (hv : v ≠ .nil) (hname : key ≠ .string indexHook)
    (hrun : (EvalM.setIndex call object key v).run m = .ok () m') (call' : Caller) :
    (EvalM.index call' object key).run m' = .ok v m' := by
  generalize hr : EStateM.Result.ok () m' = r at hrun
  cases setIndex_run_iff.mp hrun with
  | @written n id k hn hlink htakes hkey =>
    obtain rfl : m' = m.write id k v := by
      injection hr
    exact index_written (hm id) (fun i link hi => hlinks i link (Nat.lt_trans hi hn)) hn hlink htakes
      hkey hv hname call'
  | called hn hlink _ hf =>
    -- a handler of a link that goes both ways is no function
    rcases (hlinks _ _ hn hlink).2 with hnil | ⟨id, hid⟩
    · rw [hf] at hnil
      cases hnil
    · rw [hf] at hid
      cases hid
  | unkeyed => cases hr
  | refused => cases hr
  | tooLong => cases hr

end

/-- **A write along a chain ends at the first link that ends the chain.**  It makes one raw write into a
table that holds the key or has no handler, or one call of a function with the link, the key and the
value, and otherwise it fails and nothing is changed: the chain is too long, a link that is no table
has no handler, or the key is `nil` or no number.  A raw write changes one slot of one table.  Where
every link of the chain has the same table as its two handlers, or neither, a value that is not `nil`
is read back after a write that succeeded, unless the key is the name of the handler itself. -/
theorem setIndex_follows (call : Caller) (m : Machine) (object key v : Value) :
    (∀ r, (EvalM.setIndex call object key v).run m = r ↔ WriteEnds call m object key v r) ∧
    (∀ id k, (m.heap.table id).WellFormed → SlotChanged id k v m (m.write id k v)) ∧
    ((∀ id, (m.heap.table id).WellFormed) →
      (∀ n link, n < m.limits.maxMetaChain → m.heap.link? newIndexHook key object n = some link →
        m.heap.TwoWay link) →
      v ≠ .nil → key ≠ .string indexHook →
      ∀ m', (EvalM.setIndex call object key v).run m = .ok () m' →
        ∀ call', (EvalM.index call' object key).run m' = .ok v m') ∧
    (∀ fault, Key.ofValue? key = .error fault →
      fault = .keyIsNil ∧ key = .nil ∨ fault = .keyIsNaN ∧ ∃ x, key = .number x ∧ x.isNaN = true) ∧
    (∀ type : TypeName, (Fault.cannotIndex type).kind = .type ∧
      (Fault.cannotIndex type).message = "attempt to index a " ++ type.text ++ " value") ∧
    Fault.writeChainTooLong.kind = .runtime ∧
    Fault.writeChainTooLong.message = "'__newindex' chain too long; possible loop" := by
  exact ⟨fun r => setIndex_run_iff, fun id k hid => slotChanged_write hid k v,
    fun hm hlinks hv hname m' hrun call' => index_of_setIndex hm hlinks hv hname hrun call',
    fun fault hfault => Key.ofValue?_error_cases hfault, fun _ => ⟨rfl, rfl⟩, rfl, rfl⟩

/-- an opaque object and a table behind it that are forwarded to that same table, for reading and for
writing, except for the key that the table holds -/
def forwarded : Machine where
  heap := {
    tables := ⟨#[{},
      (({} : Table).setString indexHook (.table ⟨2⟩)).setString newIndexHook (.table ⟨2⟩),
      { ({} : Table).setString "held" (.integer 7) with metatable := some ⟨1⟩ }]⟩
    userdata := ⟨#[⟨some ⟨1⟩⟩]⟩ }
  globals := ⟨0⟩
  limits := {}

theorem wellFormed_forwarded (id : TableId) : (forwarded.heap.table id).WellFormed := by
  have hset : ∀ {t : Table}, t.WellFormed → ∀ (name : String) (v : Value),
      (t.setString name v).WellFormed :=
    fun ht name v => ht.setKey (k := .string name) trivial v
  match id with
  | ⟨0⟩ => exact Table.WellFormed.empty
  | ⟨1⟩ => exact hset (hset Table.WellFormed.empty _ _) _ _
  | ⟨2⟩ => exact (hset Table.WellFormed.empty _ _).with_metatable _
  | ⟨_ + 3⟩ => exact Table.WellFormed.empty

/-- the key that the table holds is written through the object and read back -/
theorem setIndex_follows_forwarded :
    (EvalM.setIndex EvalM.call (.userdata ⟨0⟩) (.string "held") (.integer 8)).run forwarded
        = .ok () (forwarded.write ⟨2⟩ (.string "held") (.integer 8)) ∧
      SlotChanged ⟨2⟩ (.string "held") (.integer 8) forwarded
        (forwarded.write ⟨2⟩ (.string "held") (.integer 8)) ∧
      (EvalM.index EvalM.call (.userdata ⟨0⟩) (.string "held")).run
          (forwarded.write ⟨2⟩ (.string "held") (.integer 8))
        = .ok (.integer 8) (forwarded.write ⟨2⟩ (.string "held") (.integer 8)) := by
  obtain ⟨hends, hslot, hback, -⟩ := setIndex_follows EvalM.call forwarded (.userdata ⟨0⟩)
    (.string "held") (.integer 8)
  have hlast : forwarded.heap.link? newIndexHook (.string "held") (.userdata ⟨0⟩) 1
      = some (.table ⟨2⟩) := by decide
  have hrun := (hends _).mpr (.written (n := 1) (by decide) hlast (Or.inl (by decide)) rfl)
  refine ⟨hrun, hslot _ _ (wellFormed_forwarded _), hback wellFormed_forwarded ?_ (by decide)
    (by decide) _ hrun EvalM.call⟩
  intro n link _ hlink
  have htwo : forwarded.heap.link? newIndexHook (.string "held") (.userdata ⟨0⟩) 2 = none := by
    decide
  have hn : ¬2 ≤ n := by
    intro hn
    have hsome := Heap.isSome_link?_of_le hn (Option.isSome_of_eq_some hlink)
    rw [htwo] at hsome
    cases hsome
  -- the object and the table are all there is
  have hlinks : link = .userdata ⟨0⟩ ∨ link = .table ⟨2⟩ := by
    obtain rfl | rfl : n = 0 ∨ n = 1 := by omega
    · exact Or.inl (Option.some.inj hlink).symm
    · exact Or.inr (Option.some.inj (hlink.symm.trans hlast))
  rcases hlinks with rfl | rfl
  · exact ⟨by decide, Or.inr ⟨⟨2⟩, by decide⟩⟩
  · exact ⟨by decide, Or.inr ⟨⟨2⟩, by decide⟩⟩

end ScriptTables
