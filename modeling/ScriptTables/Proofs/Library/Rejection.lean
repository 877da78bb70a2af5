import ScriptTables.Proofs.Library.Surfacing

/-!
# Calls that are refused

What is wrong with the arguments of a call is found before its first access to an element.  So a
call that is refused, and a removal that removes nothing, asked for one length at most.  Accesses to
tables without metatables fail all or none, so there a call that fails changed nothing at all.

* `FailedAs.refusal`        what is known of a call that is refused;
* `Bare m s`                what such accesses to the tables of `m` leave true;
* `rejected_untouched`      nothing was touched by a call that is refused;
* `Fault.Tells`             a fault that tells what was got in place of an argument;
* `mismatch_tells`          an argument of the wrong type is told from one that is missing.
-/

namespace ScriptTables

section
variable {call : Caller} {comparator : Option Value} {m : Machine} {Refusal : Fault → Prop}
  {e : Error} {s : Traced Machine}

/-- a call that fails although all its requests were answered, and not for an element -/
theorem FailedAs.refusal (h : FailedAs call comparator m Refusal e s)
    (hanswered : ∀ event ∈ s.events, ∃ r, event = .answered r)
    (hjoined : ∀ type i, e.fault ≠ .cannotJoin type i) :
    Refusal e.fault ∧ Untouched call m s := by
  cases h with
  | refused hrefusal huntouched => exact ⟨hrefusal, huntouched⟩
  | unjoined _ => exact absurd rfl (hjoined _ _)
  | raised hbroke =>
    obtain ⟨_, before, hevents, _⟩ := hbroke
    obtain ⟨r, hr⟩ := hanswered _ (hevents ▸ List.mem_append_right _ (List.mem_singleton_self _))
    cases hr

end

/-! ## tables without metatables -/

/-- The tables that have no metatable in `m` have none.  Where no link of a chain may be looked at,
no access succeeds, and nothing has happened. -/
structure Bare (m s : Machine) : Prop where
  limits : s.limits = m.limits
  chain : m.limits.maxMetaChain = 0 → s = m
  metatable : ∀ id, (m.heap.table id).metatable = none → (s.heap.table id).metatable = none

theorem Bare.refl (m : Machine) : Bare m m := ⟨rfl, fun _ => rfl, fun _ => id⟩

theorem Bare.write {m s : Machine} (h : Bare m s) (hchain : s.limits.maxMetaChain ≠ 0)
    (id : TableId) (k : Key) (v : Value) : Bare m (s.write id k v) where
  limits := h.limits
  chain hzero := absurd (h.limits ▸ hzero) hchain
  metatable id' hid' := by
    show ((s.heap.write id k v).table id').metatable = none
    rw [Heap.metatable_table_write]
    exact h.metatable id' hid'

def bareStages (m : Machine) (Working : Machine → Prop) : Stages Machine where
  Operand v := m.heap.metatable? v = none
  Checked c := ∃ id, c = .native id ∧ (m.heap.table id).metatable = none
  Refusal _ := True
  Start s := s = m
  Ready s := s = m
  Working := Working
  Failed _ s := s = m

section
variable {call : Caller} {m : Machine} {W : Machine → Prop}

theorem bareStages_of (hm : W m) (hW : ∀ s, W s → Bare m s) :
    (bareStages m W).Of (Machine.host call) where
  ready _ hs := hs
  working _ hs := hs ▸ hm
  refuse _ _ _ hs := hs
  other _ _ := trivial
  check v position function required hv _ := by
    unfold Host.checkCollection
    split
    · exact Ends.fail fun _ hs => hs
    · rename_i id _
      exact Ends.pure fun _ hs => ⟨⟨id, rfl, hv _ rfl⟩, hs⟩
    · rename_i other _ _
      have hmetatable : Ends (· = m) ((Machine.host call).metatable? other)
          (fun metatable s => metatable = none ∧ s = m) (fun _ => (· = m)) := by
        intro s hs
        subst hs
        exact ⟨hv other rfl, rfl⟩
      apply Ends.bind hmetatable
      intro metatable
      apply Ends.of_and
      intro hnone
      subst hnone
      exact Ends.fail fun _ hs => hs
  border c hc := by
    obtain ⟨id, rfl, _⟩ := hc
    exact fun _ hs => hs
  fits _ _ hs := hs
  get c hc i := by
    obtain ⟨id, rfl, hid⟩ := hc
    intro s hs
    have hhook : s.heap.metamethod (.table id) indexHook = .nil :=
      Heap.metamethod_of_none (v := .table id) ((hW s hs).metatable id hid) indexHook
    have hrun : ((Collection.native id).get (Machine.host call) i).run s
        = if s.limits.maxMetaChain = 0 then .error ⟨.readChainTooLong, []⟩ s
          else .ok ((s.heap.table id).get (.integer (Int64.ofInt i))) s :=
      EvalM.index_table call hhook (.integer (Int64.ofInt i))
    rw [hrun]
    by_cases hzero : s.limits.maxMetaChain = 0
    · rw [if_pos hzero]
      exact (hW s hs).chain ((hW s hs).limits ▸ hzero)
    · rw [if_neg hzero]
      exact hs

theorem bareStages_writes : (bareStages m (Bare m)).Writes (Machine.host call) := by
  intro c hc i v s hs
  obtain ⟨id, rfl, hid⟩ := hc
  have hhook : s.heap.metamethod (.table id) newIndexHook = .nil :=
    Heap.metamethod_of_none (v := .table id) (hs.metatable id hid) newIndexHook
  have hrun : ((Collection.native id).set (Machine.host call) i v).run s
      = if s.limits.maxMetaChain = 0 then .error ⟨.writeChainTooLong, []⟩ s
        else .ok () (s.write id (.integer (Int64.ofInt i)) v) :=
    EvalM.setIndex_table call hhook rfl v
  rw [hrun]
  by_cases hzero : s.limits.maxMetaChain = 0
  · rw [if_pos hzero]
    exact hs.chain (hs.limits ▸ hzero)
  · rw [if_neg hzero]
    exact hs.write hzero id _ v

/-- Reading changes nothing, so a call that only reads may fail at any element.  A call that also
writes fails at its first access or at none. -/
theorem ends_bare {c : ListCall} {list : Value} (hsort : c.function ≠ .sort)
    (hpack : c.function ≠ .pack) (hlists : ∀ v ∈ c.lists list, m.heap.metatable? v = none) :
    Ends (· = m) (c.run (Machine.host call) list) (fun _ _ => True) fun _ s => s = m := by
  by_cases hreads : c.function = .concat ∨ c.function = .unpack
  · have hstages : (bareStages m (· = m)).Of (Machine.host call) :=
      bareStages_of rfl fun s hs => hs ▸ Bare.refl m
    have hends := hstages.listCall (fun _ => trivial) hlists
      (fun hconcat hunpack => (hreads.elim hconcat hunpack).elim)
      (fun he => absurd he hsort) (fun _ _ _ _ hs => hs) fun he => absurd he hpack
    exact hends.mono (fun _ hs => hs) (fun _ _ _ => trivial) fun _ _ hs => hs
  · have hstages : (bareStages m (Bare m)).Of (Machine.host call) :=
      bareStages_of (Bare.refl m) fun _ hs => hs
    have hends := hstages.listCall (fun _ => trivial) hlists (fun _ _ => bareStages_writes)
      (fun he => absurd he hsort) (fun he => absurd (Or.inl he) hreads) fun he => absurd he hpack
    exact hends.mono (fun _ hs => hs) (fun _ _ _ => trivial) fun _ _ hs => hs

end

/-- **A call that is refused, or removes nothing, has touched nothing**: it asked for one length at
most.  **On tables without metatables, whatever the limits, a call that fails leaves the machine as
it was**, unless it is a sort. -/
theorem rejected_untouched (call : Caller) (c : ListCall) (list : Value) (m m' : Machine) :
    (∀ e, (c.run (Machine.host call) list).run m = .error e m' →
      (∀ event ∈ events (c.run (Machine.host call).traced list) m, ∃ r, event = .answered r) →
      (∀ type i, e.fault ≠ .cannotJoin type i) →
      Untouched call m ⟨m', events (c.run (Machine.host call).traced list) m⟩) ∧
    (c.function = .remove → (c.run (Machine.host call) list).run m = .ok [] m' →
      Untouched call m ⟨m', events (c.run (Machine.host call).traced list) m⟩) ∧
    (c.function ≠ .sort → c.function ≠ .pack →
      (∀ v ∈ c.lists list, m.heap.metatable? v = none) →
      ∀ e, (c.run (Machine.host call) list).run m = .error e m' → m' = m) := by
  have hends := ends_listCall call c list m ⟨m, []⟩ rfl
  have hstep := (Machine.host call).traced_matching.listCall list c
  refine ⟨fun e hrun hanswered hjoined => ?_, fun hremove hrun => ?_,
    fun hsort hpack hlists e hrun => ?_⟩
  · rw [traced_run_of_error hstep hrun] at hends
    exact (hends.refusal hanswered hjoined).2
  · rw [traced_run_of_ok hstep hrun] at hends
    exact hends.2 hremove rfl
  · have hbare : Ends (· = m) (c.run (Machine.host call) list) (fun _ _ => True) fun _ s => s = m :=
      ends_bare hsort hpack hlists
    have hbare := hbare m rfl
    rw [hrun] at hbare
    exact hbare

/-- An object whose length is one, behind its metatable, and a list of two. -/
def measured : Machine where
  heap := {
    tables := ⟨#[{}, ((({} : Table).setString indexHook (.table ⟨0⟩)).setString newIndexHook
      (.table ⟨0⟩)).setString lengthHook (.function ⟨0⟩), .ofList [.integer 1, .integer 2]]⟩
    functions := ⟨#[⟨"one", .script [.mk (.finish [.single (.value (.integer 1))]) none]⟩]⟩
    userdata := ⟨#[⟨some ⟨1⟩⟩]⟩ }
  globals := ⟨0⟩
  limits := {}

theorem rejected_untouched_measured :
    Untouched EvalM.call measured ⟨measured, [.answered (.length (.userdata ⟨0⟩))]⟩ ∧
    ∃ m', ((ListCall.insert .list (some 1) .nil).run (Machine.host EvalM.call) (.table ⟨2⟩)).run
        { measured with limits := { maxMetaChain := 0 } } = .error ⟨.readChainTooLong, []⟩ m' ∧
      m' = { measured with limits := { maxMetaChain := 0 } } := by
  have hrefused := (rejected_untouched EvalM.call
    (.positional .insert [.list, .value (.integer 3), .value .nil]) (.userdata ⟨0⟩) measured
    measured).1 ⟨.badArgument 2 "insert" .positionOutOfBounds, []⟩ rfl
    (fun event hevent => ⟨_, List.mem_singleton.mp hevent⟩) nofun
  have hlist : ∀ v ∈ (ListCall.insert .list (some 1) .nil).lists (.table ⟨2⟩),
      measured.heap.metatable? v = none := by
    intro v hv
    rw [List.mem_singleton.mp hv]
    rfl
  refine ⟨hrefused, _, rfl, ?_⟩
  have hplain := rejected_untouched EvalM.call (.insert .list (some 1) .nil) (.table ⟨2⟩)
    { measured with limits := { maxMetaChain := 0 } }
    { measured with limits := { maxMetaChain := 0 } }
  exact hplain.2.2 nofun nofun hlist ⟨.readChainTooLong, []⟩ rfl

/-! ## wrong types -/

/-- a fault that tells what was got in place of an argument, if its type is wrong -/
def Fault.Tells (name : String) (args : List Value) (fault : Fault) : Prop :=
  ∀ position function expected got, fault = .wrongType position function expected got →
    function = name ∧ position ≠ 0 ∧ got = (argument? args position).map Value.typeName

theorem Fault.tells_mismatch (name : String) (args : List Value) {position : Nat}
    (expected : String) (hposition : position ≠ 0) :
    (mismatch name args position expected).Tells name args := by
  intro position' function expected' got h
  cases h
  exact ⟨rfl, hposition, rfl⟩

theorem ends_library (call : Caller) (f : LibraryFunction) (args : List Value) (m : Machine) :
    Ends (· = ⟨m, []⟩) ((Machine.host call).traced.library f args) (fun _ _ => True)
      (FailedAs call (comparator? (argumentOrNil args 2)).join m
        (Fault.Tells f.name (f.supplied args))) := by
  have hstages : (tracedStages call (comparator? (argumentOrNil args 2)).join m
      (Fault.Tells f.name (f.supplied args))).Of (Machine.host call).traced :=
    tracedStages_of fun fault hother position function expected got h =>
      absurd h (hother position function expected got)
  refine (hstages.library f args (fun _ _ _ _ => trivial)
    (fun _ expected hposition => Fault.tells_mismatch _ _ expected hposition)
    (fun _ _ => tracedStages_writes) (fun _ q hq => ?_) (fun _ _ _ _ hs => .unjoined hs)
    fun _ => tracedStages_makes).mono (fun _ hs => hs) (fun _ _ _ => trivial) fun _ _ he => he
  rw [hq]
  exact tracedStages_asks

theorem Fault.message_wrongType (position : Nat) (function expected : String)
    (got : Option TypeName) :
    (Fault.wrongType position function expected got).message
      = "bad argument #" ++ position.repr ++ " to '" ++ function ++ "' (" ++ expected
        ++ " expected, got " ++ gotText got ++ ")" := by
  have hbracket : ∀ s : String, s ++ "' " ++ "(" = s ++ "' (" := fun s => String.append_assoc
  show "bad argument #" ++ position.repr ++ " to '" ++ function ++ "' " ++ "(" ++ expected
    ++ _ ++ _ ++ _ = _
  rw [hbracket]

theorem Fault.gotText_eq_iff (got : Option TypeName) : gotText got = "no value" ↔ got = none := by
  cases got with
  | none => exact ⟨fun _ => rfl, fun _ => rfl⟩
  | some type => cases type <;> exact ⟨fun h => absurd h (by decide), nofun⟩

/-- **A call that refuses an argument for its type tells the type that was got, and tells an
argument that is missing from one that is `nil`**, but for the list to unpack, which counts as `nil`
when there are no arguments at all. -/
theorem mismatch_tells (call : Caller) (f : LibraryFunction) (args : List Value) (m m' : Machine)
    {e : Error} {position : Nat} {function expected : String} {got : Option TypeName}
    (hrun : ((Machine.host call).library f args).run m = .error e m')
    (hanswered : ∀ event ∈ events ((Machine.host call).traced.library f args) m,
      ∃ r, event = .answered r)
    (hfault : e.fault = .wrongType position function expected got) :
    1 ≤ position ∧
    e.fault.message = "bad argument #" ++ position.repr ++ " to '" ++ f.name ++ "' (" ++
      expected ++ " expected, got " ++ Fault.gotText got ++ ")" ∧
    (f = .unpack → args = [] → position = 1 ∧ Fault.gotText got = "nil") ∧
    ((f = .unpack → args ≠ []) →
      (Fault.gotText got = "no value" ↔ args.length < position) ∧
      ∀ v, args[position - 1]? = some v → Fault.gotText got = v.typeName.text) := by
  have hends := ends_library call f args m ⟨m, []⟩ rfl
  rw [traced_run_of_error ((Machine.host call).traced_matching.library f args) hrun] at hends
  have hjoined : ∀ type i, e.fault ≠ .cannotJoin type i := by
    intro type i hjoin
    rw [hfault] at hjoin
    cases hjoin
  have htells := (hends.refusal hanswered hjoined).1
  obtain ⟨rfl, hposition, hgot⟩ := htells position function expected got hfault
  refine ⟨Nat.one_le_iff_ne_zero.mpr hposition, ?_, fun hunpack hnil => ?_, fun hsupplied => ?_⟩
  · rw [hfault, Fault.message_wrongType]
  · subst hunpack hnil
    have hnothing : ((Machine.host call).library .unpack []).run m
        = .error ⟨.wrongType 1 "unpack" "table" (some .nil), []⟩ m := rfl
    rw [hnothing] at hrun
    cases hrun
    cases hfault
    exact ⟨rfl, rfl⟩
  · rw [LibraryFunction.supplied_of_ne hsupplied] at hgot
    obtain ⟨n, rfl⟩ := Nat.exists_eq_succ_of_ne_zero hposition
    constructor
    · rw [Fault.gotText_eq_iff, hgot, Option.map_eq_none_iff, argument?_eq_none hposition]
    · intro v hv
      have hv : argument? args (n + 1) = some v := hv
      rw [hgot, hv]
      rfl

/-- the last position is missing, and the destination behind it -/
theorem mismatch_tells_move :
    ((Machine.host EvalM.call).library .move [.table ⟨0⟩, .integer 1]).run measured
      = .error ⟨.wrongType 3 "move" "number" none, []⟩ measured ∧
    events ((Machine.host EvalM.call).traced.library .move [.table ⟨0⟩, .integer 1]) measured = [] ∧
    (Fault.gotText none = "no value" ↔ [Value.table ⟨0⟩, Value.integer 1].length < 3) := by
  have hanswered : ∀ event ∈ events
      ((Machine.host EvalM.call).traced.library .move [.table ⟨0⟩, .integer 1]) measured,
      ∃ r, event = .answered r := fun _ hevent => absurd hevent List.not_mem_nil
  have htells := @mismatch_tells EvalM.call .move [.table ⟨0⟩, .integer 1] measured measured
    ⟨.wrongType 3 "move" "number" none, []⟩ 3 "move" "number" none rfl hanswered rfl
  exact ⟨rfl, rfl, (htells.2.2.2 nofun).1⟩

/-- nothing is supplied, and `nil` is told -/
theorem unpack_nothing :
    ((Machine.host EvalM.call).library .unpack []).run (Machine.start {})
      = .error ⟨.wrongType 1 "unpack" "table" (some .nil), []⟩ (Machine.start {}) ∧
    events ((Machine.host EvalM.call).traced.library .unpack []) (Machine.start {}) = [] ∧
    ¬(Fault.gotText (some .nil) = "no value" ↔ ([] : List Value).length < 1) :=
  ⟨rfl, rfl, by decide⟩

end ScriptTables
