import ScriptTables.Proofs.Library.Companions
import ScriptTables.Proofs.Library.Objects
import ScriptTables.Proofs.Table.Border
import ScriptTables.Proofs.Plain

/-!
# An object that stands in for a list

An opaque object whose hooks read, write and measure a hidden table stands in for a list with the same
contents: from two machines that differ only in who holds the contents, the library does the same to
the list on the one and to the object on the other.

* `Table.SameRaw`            the same contents, border and layout;
* `StandIn`                  the list, the object, and what is behind the object;
* `StandIn.Forwards`         what the hooks do;
* `StandIn.Twin`             the two machines;
* `StandIn.Unaware`          a relation that does not look at the lists;
* `StandIn.companions`       the two machines are companion hosts.
-/

namespace ScriptTables

/-! ## tables with the same contents -/

namespace Table

structure SameRaw (a b : Table) : Prop where
  array : a.array = b.array
  entries : a.entries = b.entries

theorem migrate_metatable (metatable : Option TableId) (n : Nat) :
    ∀ t : Table, migrate n { t with metatable := metatable }
      = { migrate n t with metatable := metatable } := by
  induction n with
  | zero => exact fun _ => rfl
  | succ n ih =>
    intro t
    have hnext : nextEntry? { t with metatable := metatable } = t.nextEntry? := rfl
    cases h : t.nextEntry? with
    | none => rw [migrate_of_none h, migrate_of_none (hnext.trans h)]
    | some p =>
      obtain ⟨k, v⟩ := p
      rw [migrate_of_some h, migrate_of_some (hnext.trans h)]
      exact ih { t with array := t.array.push v, entries := t.entries.erase k }

theorem setKey_metatable (t : Table) (metatable : Option TableId) (k : Key) (v : Value) :
    setKey { t with metatable := metatable } k v = { t.setKey k v with metatable := metatable } := by
  cases k with
  | integer n =>
    show setInteger { t with metatable := metatable } n v
      = { t.setInteger n v with metatable := metatable }
    have hslot : slot? { t with metatable := metatable } n = t.slot? n := rfl
    have hborder : border { t with metatable := metatable } = t.border := rfl
    rw [setInteger, setInteger, hslot, hborder]
    cases t.slot? n with
    | some i => rfl
    | none =>
      dsimp only
      split
      · rw [append_eq, append_eq]
        exact migrate_metatable metatable _ (t.pushed v)
      · rfl
  | _ => rfl

namespace SameRaw

variable {a b : Table}

theorem eq (h : a.SameRaw b) : a = { b with metatable := a.metatable } := by
  obtain ⟨array, entries, metatable⟩ := a
  obtain ⟨rfl, rfl⟩ := h
  rfl

theorem getKey (h : a.SameRaw b) (k : Key) : a.getKey k = b.getKey k := by
  rw [h.eq]
  cases k <;> rfl

theorem border (h : a.SameRaw b) : a.border = b.border := congrArg Array.size h.array

theorem wellFormed (h : a.SameRaw b) (hb : b.WellFormed) : a.WellFormed := by
  rw [h.eq]
  exact ⟨hb.back_ne_nil, hb.entry_ne_nil, hb.no_near_entry, hb.entry_normal⟩

theorem setKey (h : a.SameRaw b) (k : Key) (v : Value) : (a.setKey k v).SameRaw (b.setKey k v) := by
  rw [h.eq, setKey_metatable]
  exact ⟨rfl, rfl⟩

end SameRaw

end Table

/-! ## writes at positions -/

theorem Cells.size_modify {α : Type} [Inhabited α] (c : Cells α) (i : Nat) (f : α → α) :
    (c.modify i f).size = max c.size (i + 1) := by
  unfold modify
  by_cases hi : i < c.size
  · rw [if_pos hi]
    show (c.stored.modify i f).size = _
    have hsize : c.size = c.stored.size := rfl
    rw [Array.size_modify]
    omega
  · rw [if_neg hi]
    show ((c.stored ++ Array.replicate (i - c.size) default).push (f default)).size = _
    have hsize : c.size = c.stored.size := rfl
    rw [Array.size_push, Array.size_append, Array.size_replicate]
    omega

theorem Heap.size_write (h : Heap) (id : TableId) (k : Key) (v : Value) :
    (h.write id k v).tables.size = max h.tables.size (id.index + 1) :=
  h.tables.size_modify id.index _

theorem Heap.lt_size_write {h : Heap} {i : Nat} (hi : i < h.tables.size) (id : TableId) (k : Key)
    (v : Value) : i < (h.write id k v).tables.size := by
  rw [size_write]
  exact Nat.lt_of_lt_of_le hi (Nat.le_max_left _ _)

theorem Heap.elements_write {V : Value → Prop} {h : Heap} {id id' : TableId}
    (hid : (h.table id).WellFormed) (helements : ∀ j, V ((h.table id').getInteger j)) (i : Int64)
    {v : Value} (hv : V v) :
    ∀ j, V (((h.write id (.integer i) v).table id').getInteger j) := by
  intro j
  by_cases he : id' = id
  · subst he
    rw [table_write_self, ← Table.getKey_integer, Table.getKey_setKey hid]
    split
    · exact hv
    · exact helements j
  · rw [table_write_of_ne h he]
    exact helements j

/-! ## hooks -/

/-- a function that is found under a name on the heap -/
structure Hook where
  id : FunctionId
  function : Function

def Hook.In (f : Hook) (h : Heap) : Prop := h.function f.id = f.function

/-- A list, and an object that stands in for it: the metatable of the object, the hooks in it, and the
table that they work on. -/
structure StandIn where
  list : TableId
  object : UserdataId
  metatable : TableId
  index : Hook
  newIndex : Hook
  length : Hook
  hidden : TableId

namespace StandIn

/-- Where there is room for one more call, the hooks do to the hidden table what is done to a list. -/
structure Forwards (x : StandIn) (call : Caller) : Prop where
  index : ∀ m : Machine, x.index.In m.heap → m.depth < m.limits.maxCallDepth → ∀ object i,
    (EvalM.callFirst call (.function x.index.id) [object, .integer i]).run m
      = .ok ((m.heap.table x.hidden).getInteger i) m
  newIndex : ∀ m : Machine, x.newIndex.In m.heap → m.depth < m.limits.maxCallDepth →
    ∀ object i v, ∃ results,
      (call (.function x.newIndex.id) [object, .integer i, v]).run m
        = .ok results (m.write x.hidden (.integer i) v)
  length : ∀ m : Machine, x.length.In m.heap → m.depth < m.limits.maxCallDepth → ∀ object,
    (EvalM.callFirst call (.function x.length.id) [object]).run m
      = .ok (.integer (Int64.ofNat (m.heap.table x.hidden).border)) m

structure Wired (x : StandIn) (h : Heap) : Prop where
  metatable : h.metatable? (.userdata x.object) = some x.metatable
  index : h.metamethod (.userdata x.object) indexHook = .function x.index.id
  newIndex : h.metamethod (.userdata x.object) newIndexHook = .function x.newIndex.id
  length : h.metamethod (.userdata x.object) lengthHook = .function x.length.id
  indexIn : x.index.In h
  newIndexIn : x.newIndex.In h
  lengthIn : x.length.In h

theorem Wired.write {x : StandIn} {h : Heap} (hw : x.Wired h) {id : TableId}
    (hid : (h.table id).WellFormed) (i : Int64) (v : Value) :
    x.Wired (h.write id (.integer i) v) where
  metatable := hw.metatable
  index := by rw [Heap.metamethod_position hid, hw.index]
  newIndex := by rw [Heap.metamethod_position hid, hw.newIndex]
  length := by rw [Heap.metamethod_position hid, hw.length]
  indexIn := hw.indexIn
  newIndexIn := hw.newIndexIn
  lengthIn := hw.lengthIn

theorem Wired.hooks {x : StandIn} {h : Heap} (hw : x.Wired h) : h.Hooks x.object :=
  ⟨⟨_, hw.index⟩, ⟨_, hw.newIndex⟩, ⟨_, hw.length⟩⟩

/-! ## the object as a collection -/

section
variable {x : StandIn} {call : Caller} {m : Machine}

theorem index_object (hcall : x.Forwards call) (hw : x.Wired m.heap)
    (hlinks : m.limits.maxMetaChain ≠ 0) (hlevel : m.depth < m.limits.maxCallDepth) (i : Int64) :
    (EvalM.index call (.userdata x.object) (.integer i)).run m
      = .ok ((m.heap.table x.hidden).getInteger i) m := by
  rw [EvalM.index_userdata call hw.index hlinks]
  exact hcall.index m hw.indexIn hlevel _ i

theorem setIndex_object (hcall : x.Forwards call) (hw : x.Wired m.heap)
    (hlinks : m.limits.maxMetaChain ≠ 0) (hlevel : m.depth < m.limits.maxCallDepth) (i : Int64)
    (v : Value) :
    (EvalM.setIndex call (.userdata x.object) (.integer i) v).run m
      = .ok () (m.write x.hidden (.integer i) v) := by
  obtain ⟨results, hrun⟩ := hcall.newIndex m hw.newIndexIn hlevel (.userdata x.object) i v
  rw [EvalM.setIndex_userdata call hw.newIndex hlinks, run_bind_of_ok hrun]
  rfl

theorem length_object (hcall : x.Forwards call) (hw : x.Wired m.heap)
    (hlevel : m.depth < m.limits.maxCallDepth) :
    (EvalM.length call (.userdata x.object)).run m
      = .ok (.integer (Int64.ofNat (m.heap.table x.hidden).border)) m := by
  rw [EvalM.length_userdata call hw.length]
  exact hcall.length m hw.lengthIn hlevel _

theorem checkCollection_object (hw : x.Wired m.heap) (position : Nat) (function : String)
    (required : Capabilities) :
    ((Machine.host call).checkCollection (some (.userdata x.object)) position function required).run m
      = .ok (.protocol (.userdata x.object) x.metatable) m := by
  have hmetatable : ((Machine.host call).metatable? (.userdata x.object)).run m
      = .ok (some x.metatable) m :=
    congrArg (EStateM.Result.ok · m) hw.metatable
  exact checkCollection_userdata hmetatable (fun _ => rfl) (hw.hooks.held hw.metatable) _ _ _

end

/-! ## two machines -/

/-- a plain table that is neither the list nor behind the object -/
structure Bystander (x : StandIn) (V : Value → Prop) (s t : Machine) (id : TableId) : Prop where
  ne_list : id ≠ x.list
  ne_hidden : id ≠ x.hidden
  plain : s.heap.Plain id
  plain' : t.heap.Plain id
  elements : ∀ i, V ((s.heap.table id).getInteger i)

theorem Bystander.write {x : StandIn} {V : Value → Prop} {s t : Machine} {id a b : TableId}
    (h : x.Bystander V s t id) (ha : (s.heap.table a).WellFormed) (hb : (t.heap.table b).WellFormed)
    (i : Int64) {v : Value} (hv : V v) :
    x.Bystander V (s.write a (.integer i) v) (t.write b (.integer i) v) id where
  ne_list := h.ne_list
  ne_hidden := h.ne_hidden
  plain := h.plain.write ha i v
  plain' := h.plain'.write hb i v
  elements := Heap.elements_write ha h.elements i hv

/-- Two machines that are the same, but that what the one has in its list, the other has behind the
object.  `others` are further tables that are used as lists, `V` is true of all elements. -/
structure Twin (x : StandIn) (others : TableId → Prop) (V : Value → Prop) (s t : Machine) :
    Prop where
  links : s.limits.maxMetaChain ≠ 0
  level : s.depth < s.limits.maxCallDepth
  machine : { t with heap := s.heap } = s
  functions : t.heap.functions = s.heap.functions
  userdata : t.heap.userdata = s.heap.userdata
  size : t.heap.tables.size = s.heap.tables.size
  list_lt : x.list.index < s.heap.tables.size
  hidden_lt : x.hidden.index < s.heap.tables.size
  tables : ∀ id, id ≠ x.list → id ≠ x.hidden → t.heap.table id = s.heap.table id
  contents : (t.heap.table x.hidden).SameRaw (s.heap.table x.list)
  plain : s.heap.Plain x.list
  elements : ∀ i, V ((s.heap.table x.list).getInteger i)
  wired : x.Wired t.heap
  others : ∀ id, others id → x.Bystander V s t id

section
variable {x : StandIn} {others : TableId → Prop} {V : Value → Prop} {s t : Machine}

theorem Twin.limits (h : x.Twin others V s t) : t.limits = s.limits := by
  have hlimits := congrArg Machine.limits h.machine
  exact hlimits

theorem Twin.depth (h : x.Twin others V s t) : t.depth = s.depth := by
  have hdepth := congrArg Machine.depth h.machine
  exact hdepth

/-- two tables of which the one is used as a list where the other is -/
inductive Pair (x : StandIn) (others : TableId → Prop) : TableId → TableId → Prop where
  | list : Pair x others x.list x.hidden
  | other {id : TableId} : others id → Pair x others id id

variable {a b : TableId}

theorem Twin.wellFormed (h : x.Twin others V s t) (hab : x.Pair others a b) :
    (s.heap.table a).WellFormed ∧ (t.heap.table b).WellFormed := by
  cases hab with
  | list => exact ⟨h.plain.wellFormed, h.contents.wellFormed h.plain.wellFormed⟩
  | other hid => exact ⟨(h.others _ hid).plain.wellFormed, (h.others _ hid).plain'.wellFormed⟩

theorem Twin.write (h : x.Twin others V s t) (hab : x.Pair others a b) (i : Int64) {v : Value}
    (hv : V v) : x.Twin others V (s.write a (.integer i) v) (t.write b (.integer i) v) where
  links := h.links
  level := h.level
  machine := by
    have hwritten := congrArg (fun m : Machine => m.write a (.integer i) v) h.machine
    exact hwritten
  functions := h.functions
  userdata := h.userdata
  size := by
    have hlist := h.list_lt
    have hhidden := h.hidden_lt
    show (t.heap.write b _ _).tables.size = (s.heap.write a _ _).tables.size
    rw [Heap.size_write, Heap.size_write, h.size]
    cases hab with
    | list => omega
    | other => rfl
  list_lt := Heap.lt_size_write h.list_lt a _ v
  hidden_lt := Heap.lt_size_write h.hidden_lt a _ v
  tables := by
    intro id hlist hhidden
    show (t.heap.write b _ _).table id = (s.heap.write a _ _).table id
    have hsame := h.tables id hlist hhidden
    cases hab with
    | list => rw [Heap.table_write_of_ne _ hhidden, Heap.table_write_of_ne _ hlist, hsame]
    | other =>
      by_cases he : id = a
      · rw [← he, Heap.table_write_self, Heap.table_write_self, hsame]
      · rw [Heap.table_write_of_ne _ he, Heap.table_write_of_ne _ he, hsame]
  contents := by
    show ((t.heap.write b _ _).table x.hidden).SameRaw ((s.heap.write a _ _).table x.list)
    cases hab with
    | list =>
      rw [Heap.table_write_self, Heap.table_write_self]
      exact h.contents.setKey _ v
    | other hid =>
      rw [Heap.table_write_of_ne _ (h.others _ hid).ne_hidden.symm,
        Heap.table_write_of_ne _ (h.others _ hid).ne_list.symm]
      exact h.contents
  plain := h.plain.write (h.wellFormed hab).1 i v
  elements := Heap.elements_write (h.wellFormed hab).1 h.elements i hv
  wired := h.wired.write (h.wellFormed hab).2 i v
  others := fun id hid => (h.others id hid).write (h.wellFormed hab).1 (h.wellFormed hab).2 i hv

end

/-! ## the two hosts -/

/-- A relation between machines that does not look at lists: it stays when the same element is written
on both sides. -/
def Unaware (x : StandIn) (others : TableId → Prop) (V : Value → Prop)
    (I : Machine → Machine → Prop) : Prop :=
  ∀ s t, I s t → x.Twin others V s t → ∀ a b, x.Pair others a b → ∀ i v, V v →
    I (s.write a (.integer i) v) (t.write b (.integer i) v)

def Related (x : StandIn) (others : TableId → Prop) (V : Value → Prop)
    (I : Machine → Machine → Prop) (s t : Machine) : Prop :=
  I s t ∧ x.Twin others V s t

end StandIn

def Value.isBare : Value → Bool
  | .table _ | .userdata _ => false
  | _ => true

namespace StandIn

/-- operands of which the one is used where the other is -/
inductive Operands (x : StandIn) (others : TableId → Prop) : Value → Value → Prop where
  | list : Operands x others (.table x.list) (.userdata x.object)
  | other {id : TableId} : others id → Operands x others (.table id) (.table id)
  | bare {v : Value} : v.isBare = true → Operands x others v v

inductive Counterparts (x : StandIn) (others : TableId → Prop) : Collection → Collection → Prop where
  | list : Counterparts x others (.native x.list) (.protocol (.userdata x.object) x.metatable)
  | other {id : TableId} : others id → id ≠ x.list →
      Counterparts x others (.native id) (.native id)

section
variable {x : StandIn} {others : TableId → Prop} {V : Value → Prop} {I : Machine → Machine → Prop}
  {call : Caller} {c d : Collection} {v w : Value}

theorem check_inStep (hvw : x.Operands others v w) (position : Nat) (function : String)
    (required : Capabilities) :
    InStep (x.Related others V I) (x.Counterparts others)
      ((Machine.host call).checkCollection (some v) position function required)
      ((Machine.host call).checkCollection (some w) position function required) := by
  intro s t hst
  cases hvw with
  | list =>
    rw [checkCollection_object hst.2.wired]
    exact ⟨.list, hst⟩
  | other hid => exact ⟨.other hid (hst.2.others _ hid).ne_list, hst⟩
  | bare hbare =>
    cases v with
    | table id => cases hbare
    | userdata id => cases hbare
    | _ => exact ⟨rfl, hst⟩

theorem get_inStep (hcall : x.Forwards call) (hcd : x.Counterparts others c d) (i : Int) :
    InStep (x.Related others V I) (fun a b => a = b ∧ V a) (c.get (Machine.host call) i)
      (d.get (Machine.host call) i) := by
  intro s t hst
  obtain ⟨hI, h⟩ := hst
  have hlinks : t.limits.maxMetaChain ≠ 0 := h.limits ▸ h.links
  cases hcd with
  | list =>
    have hlist : ((Collection.native x.list).get (Machine.host call) i).run s = _ :=
      EvalM.index_plain call h.plain (.integer (Int64.ofInt i))
    have hobject : ((Collection.protocol (.userdata x.object) x.metatable).get (Machine.host call)
        i).run t = _ := index_object hcall h.wired hlinks (by rw [h.depth, h.limits]; exact h.level)
      (Int64.ofInt i)
    rw [hlist, hobject, if_neg h.links]
    exact ⟨⟨(h.contents.getKey (.integer (Int64.ofInt i))).symm, h.elements _⟩, hI, h⟩
  | @other id hid hne =>
    have hby := h.others id hid
    have hleft : ((Collection.native id).get (Machine.host call) i).run s = _ :=
      EvalM.index_plain call hby.plain (.integer (Int64.ofInt i))
    have hright : ((Collection.native id).get (Machine.host call) i).run t = _ :=
      EvalM.index_plain call hby.plain' (.integer (Int64.ofInt i))
    rw [hleft, hright, if_neg h.links, if_neg hlinks, h.tables id hne hby.ne_hidden]
    exact ⟨⟨rfl, hby.elements _⟩, hI, h⟩

theorem set_inStep (hcall : x.Forwards call) (hI : x.Unaware others V I)
    (hcd : x.Counterparts others c d) (i : Int) (hv : V v) :
    InStep (x.Related others V I) (· = ·) (c.set (Machine.host call) i v)
      (d.set (Machine.host call) i v) := by
  intro s t hst
  obtain ⟨hst, h⟩ := hst
  have hlinks : t.limits.maxMetaChain ≠ 0 := h.limits ▸ h.links
  have hkey := Key.ofValue?_integer (Int64.ofInt i)
  cases hcd with
  | list =>
    have hlist : ((Collection.native x.list).set (Machine.host call) i v).run s = _ :=
      EvalM.setIndex_plain call h.plain hkey v
    have hobject : ((Collection.protocol (.userdata x.object) x.metatable).set (Machine.host call)
        i v).run t = _ := setIndex_object hcall h.wired hlinks
      (by rw [h.depth, h.limits]; exact h.level) (Int64.ofInt i) v
    rw [hlist, hobject, if_neg h.links]
    exact ⟨rfl, hI s t hst h _ _ .list _ v hv, h.write .list _ hv⟩
  | @other id hid hne =>
    have hby := h.others id hid
    have hleft : ((Collection.native id).set (Machine.host call) i v).run s = _ :=
      EvalM.setIndex_plain call hby.plain hkey v
    have hright : ((Collection.native id).set (Machine.host call) i v).run t = _ :=
      EvalM.setIndex_plain call hby.plain' hkey v
    rw [hleft, hright, if_neg h.links, if_neg hlinks]
    exact ⟨rfl, hI s t hst h _ _ (.other hid) _ v hv, h.write (.other hid) _ hv⟩

theorem border_inStep (hcall : x.Forwards call) (hcd : x.Counterparts others c d) :
    InStep (x.Related others V I) (· = ·) (c.border (Machine.host call))
      (d.border (Machine.host call)) := by
  intro s t hst
  obtain ⟨hI, h⟩ := hst
  cases hcd with
  | list =>
    have hobject : ((Collection.protocol (.userdata x.object) x.metatable).border
        (Machine.host call)).run t = .ok (Int64.ofNat (t.heap.table x.hidden).border) t := by
      have hlength : ((Machine.host call).length (.userdata x.object)).run t = _ :=
        length_object hcall h.wired (by rw [h.depth, h.limits]; exact h.level)
      rw [Collection.border, run_bind_of_ok hlength]
      rfl
    rw [hobject, h.contents.border]
    exact ⟨rfl, hI, h⟩
  | @other id hid hne =>
    have hsame := h.tables id hne (h.others id hid).ne_hidden
    exact ⟨congrArg (fun table => Int64.ofNat (Table.border table)) hsame.symm, hI, h⟩

/-- **With the list on the one side and the object on the other, the machines are companions.** -/
theorem companions (hcall : x.Forwards call) (hnil : V .nil) (hI : x.Unaware others V I) :
    (Machine.host call).Companions (Machine.host call) (x.Related others V I) V
      (x.Operands others) (x.Counterparts others) where
  nil := hnil
  operand_nil := .bare rfl
  operand_isNil := by
    intro v w hvw
    cases hvw <;> rfl
  check _ _ hvw := check_inStep hvw
  sameAs := by
    intro c d c' d' hcd hcd'
    cases hcd with
    | list =>
      cases hcd' with
      | list =>
        show (x.list == x.list) = (Value.userdata x.object).rawEq (.userdata x.object)
        rw [Value.rawEq_self (v := .userdata x.object) nofun]
        exact beq_self_eq_true x.list
      | other _ hne => exact beq_eq_false_iff_ne.mpr hne.symm
    | other _ hne =>
      cases hcd' with
      | list => exact beq_eq_false_iff_ne.mpr hne
      | other => rfl
  get _ _ hcd := get_inStep hcall hcd
  set _ _ hcd i _ hv := set_inStep hcall hI hcd i hv
  border _ _ hcd := border_inStep hcall hcd
  fits n := InStep.observe fun s t hst => by rw [hst.2.limits]

end

end StandIn

end ScriptTables
