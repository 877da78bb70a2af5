import ScriptTables.Proofs.Library.StandIn

/-!
# Questions that keep off the lists

A sort asks its comparator, or the order of the machine.  A question that touches neither the list nor
the table behind the object goes on in the same way whatever is in them, and leaves them as they are.
This is said of one machine with other tables in the two places; that two machines which are twins are
asked the same follows from it.

* `StandIn.refill`       a machine with other tables in the places of the list and the hidden one;
* `StandIn.Settled`      a machine on which the list, the object and the other lists are in order;
* `StandIn.KeepsOff`     a question that touches neither of the two tables;
* `KeepsOff.asks`        on twins it has the same answer or error and leaves twins behind;
* `keepsOff_of_outcome`  questions that answer by the two values alone.
-/

namespace ScriptTables

theorem Cells.eq_of_get {α : Type} [Inhabited α] {c d : Cells α} (hsize : c.size = d.size)
    (hget : ∀ i, c.get i = d.get i) : c = d := by
  obtain ⟨a⟩ := c
  obtain ⟨b⟩ := d
  congr 1
  refine Array.ext hsize fun i hi hi' => ?_
  have h : a.getD i default = b.getD i default := hget i
  rw [Array.getD_eq_getD_getElem?, Array.getD_eq_getD_getElem?, Array.getElem?_eq_getElem hi,
    Array.getElem?_eq_getElem hi'] at h
  exact h

namespace StandIn

/-! ## other tables in the two places -/

def refill (x : StandIn) (a b : Table) (m : Machine) : Machine :=
  { m with heap := (m.heap.modifyTable x.list fun _ => a).modifyTable x.hidden fun _ => b }

/-- the end of an action, on a machine with other tables in the two places -/
def refillEnd {α : Type} (x : StandIn) (a b : Table) :
    EStateM.Result Error Machine α → EStateM.Result Error Machine α
  | .ok r m => .ok r (x.refill a b m)
  | .error e m => .error e (x.refill a b m)

section
variable {x : StandIn} {others : TableId → Prop} {V : Value → Prop} {s t m : Machine} {a b : Table}

theorem table_refill (id : TableId) : (x.refill a b m).heap.table id =
    if x.hidden = id then b else if x.list = id then a else m.heap.table id := by
  show (((m.heap.modifyTable x.list _).modifyTable x.hidden _).table id) = _
  rw [Heap.table_modifyTable, Heap.table_modifyTable]

theorem size_refill (hlist : x.list.index < m.heap.tables.size)
    (hhidden : x.hidden.index < m.heap.tables.size) :
    (x.refill a b m).heap.tables.size = m.heap.tables.size := by
  show ((m.heap.tables.modify x.list.index _).modify x.hidden.index _).size = _
  rw [Cells.size_modify, Cells.size_modify]
  omega

theorem eq_refill (hmachine : { t with heap := s.heap } = s)
    (hfunctions : t.heap.functions = s.heap.functions)
    (huserdata : t.heap.userdata = s.heap.userdata)
    (hsize : t.heap.tables.size = s.heap.tables.size)
    (hlist : x.list.index < s.heap.tables.size) (hhidden : x.hidden.index < s.heap.tables.size)
    (htables : ∀ id, id ≠ x.list → id ≠ x.hidden → t.heap.table id = s.heap.table id) :
    t = x.refill (t.heap.table x.list) (t.heap.table x.hidden) s := by
  have htables : t.heap.tables
      = (x.refill (t.heap.table x.list) (t.heap.table x.hidden) s).heap.tables := by
    refine Cells.eq_of_get (hsize.trans (size_refill hlist hhidden).symm) fun i => ?_
    have htable := table_refill (x := x) (a := t.heap.table x.list) (b := t.heap.table x.hidden)
      (m := s) ⟨i⟩
    refine Eq.trans ?_ htable.symm
    show t.heap.table ⟨i⟩ = _
    by_cases hh : x.hidden = ⟨i⟩
    · rw [if_pos hh, hh]
    · by_cases hl : x.list = ⟨i⟩
      · rw [if_neg hh, if_pos hl, hl]
      · rw [if_neg hh, if_neg hl]
        exact htables _ (Ne.symm hl) (Ne.symm hh)
  have hheap : t.heap = (x.refill (t.heap.table x.list) (t.heap.table x.hidden) s).heap := by
    calc t.heap = ⟨t.heap.tables, t.heap.functions, t.heap.userdata⟩ := rfl
      _ = ⟨(x.refill (t.heap.table x.list) (t.heap.table x.hidden) s).heap.tables,
          s.heap.functions, s.heap.userdata⟩ := by rw [htables, hfunctions, huserdata]
      _ = (x.refill (t.heap.table x.list) (t.heap.table x.hidden) s).heap := rfl
  calc t = { s with heap := t.heap } := congrArg (fun m : Machine => { m with heap := t.heap }) hmachine
    _ = x.refill (t.heap.table x.list) (t.heap.table x.hidden) s :=
      congrArg (fun h : Heap => { s with heap := h }) hheap

theorem Twin.eq_refill (h : x.Twin others V s t) :
    t = x.refill (t.heap.table x.list) (t.heap.table x.hidden) s :=
  StandIn.eq_refill h.machine h.functions h.userdata h.size h.list_lt h.hidden_lt h.tables

theorem refill_self (hlist : x.list.index < m.heap.tables.size)
    (hhidden : x.hidden.index < m.heap.tables.size) :
    m = x.refill (m.heap.table x.list) (m.heap.table x.hidden) m :=
  StandIn.eq_refill rfl rfl rfl rfl hlist hhidden fun _ _ _ => rfl

/-! ## one machine -/

/-- There is room for the list, the object and the other lists, and they are in order. -/
structure Settled (x : StandIn) (others : TableId → Prop) (V : Value → Prop) (m : Machine) :
    Prop where
  links : m.limits.maxMetaChain ≠ 0
  level : m.depth < m.limits.maxCallDepth
  list_lt : x.list.index < m.heap.tables.size
  hidden_lt : x.hidden.index < m.heap.tables.size
  plain : m.heap.Plain x.list
  hidden : (m.heap.table x.hidden).WellFormed
  wired : x.Wired m.heap
  others : ∀ id, others id → x.Bystander V m m id

theorem Twin.settled (h : x.Twin others V m m) : x.Settled others V m where
  links := h.links
  level := h.level
  list_lt := h.list_lt
  hidden_lt := h.hidden_lt
  plain := h.plain
  hidden := h.contents.wellFormed h.plain.wellFormed
  wired := h.wired
  others := h.others

theorem Settled.write (h : x.Settled others V m) {id : TableId} (hid : (m.heap.table id).WellFormed)
    (i : Int64) {v : Value} (hv : V v) : x.Settled others V (m.write id (.integer i) v) where
  links := h.links
  level := h.level
  list_lt := Heap.lt_size_write h.list_lt id _ v
  hidden_lt := Heap.lt_size_write h.hidden_lt id _ v
  plain := h.plain.write hid i v
  hidden := by
    show ((m.heap.write id _ _).table x.hidden).WellFormed
    by_cases he : x.hidden = id
    · rw [he, Heap.table_write_self]
      exact hid.setKey (k := .integer i) trivial v
    · rw [Heap.table_write_of_ne _ he]
      exact h.hidden
  wired := h.wired.write hid i v
  others := fun id' hid' => (h.others id' hid').write hid hid i hv

theorem Settled.session (h : x.Settled others V m) (session : Session) :
    x.Settled others V { m with session := session } where
  links := h.links
  level := h.level
  list_lt := h.list_lt
  hidden_lt := h.hidden_lt
  plain := h.plain
  hidden := h.hidden
  wired := h.wired
  others := fun id hid =>
    { ne_list := (h.others id hid).ne_list
      ne_hidden := (h.others id hid).ne_hidden
      plain := (h.others id hid).plain
      plain' := (h.others id hid).plain
      elements := (h.others id hid).elements }

/-- twins stay twins when both go on in the same way and the two tables are left as they are -/
theorem Twin.refill (h : x.Twin others V s t) (hm : x.Settled others V m)
    (hkept : m = x.refill (s.heap.table x.list) (s.heap.table x.hidden) m)
    (hm' : x.Settled others V (x.refill (t.heap.table x.list) (t.heap.table x.hidden) m)) :
    x.Twin others V m (x.refill (t.heap.table x.list) (t.heap.table x.hidden) m) := by
  have hlist : m.heap.table x.list = s.heap.table x.list := by
    rw [hkept, table_refill, if_pos rfl]
    by_cases he : x.hidden = x.list
    · rw [if_pos he, he]
    · rw [if_neg he]
  exact
    { links := hm.links
      level := hm.level
      machine := rfl
      functions := rfl
      userdata := rfl
      size := size_refill hm.list_lt hm.hidden_lt
      list_lt := hm.list_lt
      hidden_lt := hm.hidden_lt
      tables := fun id hne hne' => by rw [table_refill, if_neg hne'.symm, if_neg hne.symm]
      contents := by
        rw [table_refill, if_pos rfl, hlist]
        exact h.contents
      plain := hm.plain
      elements := by
        rw [hlist]
        exact h.elements
      wired := hm'.wired
      others := fun id hid =>
        { ne_list := (hm.others id hid).ne_list
          ne_hidden := (hm.others id hid).ne_hidden
          plain := (hm.others id hid).plain
          plain' := (hm'.others id hid).plain
          elements := (hm.others id hid).elements } }

end

/-! ## questions -/

/-- A question of a sort that touches neither the list nor what is behind the object.  Whatever tables
are in the two places, it has the same answer or error, does the same elsewhere, and leaves them
there; and it leaves the object and the other lists in order.  `J` is what else it relies on, such as
a function on the heap or a counter. -/
structure KeepsOff (x : StandIn) (call : Caller) (others : TableId → Prop) (V : Value → Prop)
    (J : Machine → Prop) (comparator : Option Value) : Prop where
  same : ∀ u v, V u → V v → ∀ m, x.Settled others V m → J m → ∀ a b,
    ((Machine.host call).precedes comparator u v).run (x.refill a b m)
      = x.refillEnd a b (((Machine.host call).precedes comparator u v).run m)
  keeps : ∀ u v, V u → V v → Keeps (fun m => x.Settled others V m ∧ J m)
    ((Machine.host call).precedes comparator u v)

section
variable {x : StandIn} {call : Caller} {others : TableId → Prop} {V : Value → Prop}
  {J : Machine → Prop} {comparator : Option Value}

def BothSettled (x : StandIn) (others : TableId → Prop) (V : Value → Prop) (J : Machine → Prop)
    (s t : Machine) : Prop :=
  (x.Settled others V s ∧ J s) ∧ x.Settled others V t ∧ J t

theorem unaware_bothSettled (hJ : x.Unaware others V fun s t => J s ∧ J t) :
    x.Unaware others V (x.BothSettled others V J) := by
  intro s t hst htwin a b hab i v hv
  obtain ⟨⟨hs, hJs⟩, ht, hJt⟩ := hst
  obtain ⟨ha, hb⟩ := htwin.wellFormed hab
  obtain ⟨hJs', hJt'⟩ := hJ s t ⟨hJs, hJt⟩ htwin a b hab i v hv
  exact ⟨⟨hs.write ha i hv, hJs'⟩, ht.write hb i hv, hJt'⟩

/-- **A question that keeps off the two tables does the same on twins.** -/
theorem KeepsOff.asks (h : x.KeepsOff call others V J comparator) :
    Host.Companions.Asks (Machine.host call) (Machine.host call)
      (x.Related others V (x.BothSettled others V J)) V comparator := by
  intro u v hu hv s t hst
  obtain ⟨⟨hs, ht⟩, htwin⟩ := hst
  have hkeptS := h.keeps u v hu hv s hs
  have hkeptT := h.keeps u v hu hv t ht
  have hself := h.same u v hu hv s hs.1 hs.2 (s.heap.table x.list) (s.heap.table x.hidden)
  have hother := h.same u v hu hv s hs.1 hs.2 (t.heap.table x.list) (t.heap.table x.hidden)
  rw [← refill_self hs.1.list_lt hs.1.hidden_lt] at hself
  rw [← htwin.eq_refill] at hother
  rw [hother] at hkeptT ⊢
  cases hrun : ((Machine.host call).precedes comparator u v).run s with
  | ok answer m =>
    rw [hrun] at hself hkeptS hkeptT
    injection hself with _ hkept
    exact ⟨rfl, ⟨hkeptS, hkeptT⟩, htwin.refill hkeptS.1 hkept hkeptT.1⟩
  | error e m =>
    rw [hrun] at hself hkeptS hkeptT
    injection hself with _ hkept
    exact ⟨rfl, ⟨hkeptS, hkeptT⟩, htwin.refill hkeptS.1 hkept hkeptT.1⟩

/-! ## questions that answer by their arguments -/

def endWith {α : Type} (outcome : Except Error α) (m : Machine) : EStateM.Result Error Machine α :=
  match outcome with
  | .ok a => .ok a m
  | .error e => .error e m

/-- a question whose outcome is settled by the two values and that changes the session at most -/
theorem keepsOff_of_outcome (outcome : Value → Value → Except Error Bool)
    (effect : Value → Value → Session → Session)
    (hrefill : ∀ m a b, J m → J (x.refill a b m))
    (hsession : ∀ m session, J m → J { m with session := session })
    (h : ∀ u v, V u → V v → ∀ m : Machine, m.depth < m.limits.maxCallDepth → J m →
      ((Machine.host call).precedes comparator u v).run m
        = endWith (outcome u v) { m with session := effect u v m.session }) :
    x.KeepsOff call others V J comparator where
  same := by
    intro u v hu hv m hm hJm a b
    rw [h u v hu hv m hm.level hJm, h u v hu hv (x.refill a b m) hm.level (hrefill m a b hJm)]
    cases outcome u v <;> rfl
  keeps := by
    intro u v hu hv m hm
    rw [h u v hu hv m hm.1.level hm.2]
    have hafter := And.intro (hm.1.session (effect u v m.session))
      (hsession m (effect u v m.session) hm.2)
    cases outcome u v <;> exact hafter

end

end StandIn

end ScriptTables
