import ScriptTables.Proofs.Library.Objects
import ScriptTables.Proofs.Machine.Writing

/-!
# What the check of a collection looks at

Whether a value passes as a collection depends on its metatable and on a few entries of that, which are
looked up raw: no hook is called, and what the metatable inherits from a metatable of its own is not
seen.  An access that needs a hook finds it in the same place.  So a value that is no table refuses a
read itself exactly if the hook for reading is missing there, and a write likewise; any other access
goes on to the hook.

* `Capabilities.Needs`       the hooks that are needed, those for reading together with that for the
                             length;
* `Heap.Provides`            a table, or a value whose metatable holds the hooks;
* `check_of_provides`, `check_of_not_provides`   the check;
* `Refuses`                  an access that no limit and no function brings beyond the value itself;
* `refuses_index_iff`, `refuses_setIndex_iff`    accesses and hooks;
* `check_exact`              all of it.
-/

namespace ScriptTables

/-! ## hooks that are needed -/

/-- To read elements is also to ask how many there are. -/
def Capabilities.Needs (required : Capabilities) (hook : String) : Prop :=
  (required.read = true ∧ hook = indexHook) ∨ (required.write = true ∧ hook = newIndexHook) ∨
    ((required.length = true ∨ required.read = true) ∧ hook = lengthHook)

theorem Capabilities.mem_hooks_closed {required : Capabilities} {hook : String} :
    hook ∈ required.closed.hooks ↔ required.Needs hook := by
  obtain ⟨r, w, l⟩ := required
  cases r <;> cases w <;> cases l <;> simp [closed, union, measuring, hooks, Needs]

theorem Capabilities.needs_union {a b : Capabilities} {hook : String} :
    (a.union b).Needs hook ↔ a.Needs hook ∨ b.Needs hook := by
  simp only [Needs, union, Bool.or_eq_true]
  grind

namespace Heap

def HoldsHook (h : Heap) (v : Value) (hook : String) : Prop :=
  ∃ metatable, h.metatable? v = some metatable ∧ (h.table metatable).getString hook ≠ .nil

/-- A value is a table, or its metatable itself holds every hook that is needed. -/
def Provides (h : Heap) (v : Value) (required : Capabilities) : Prop :=
  (∃ id, v = .table id) ∨ ∃ metatable, h.metatable? v = some metatable ∧
    ∀ hook, required.Needs hook → (h.table metatable).getString hook ≠ .nil

section
variable {h : Heap} {v : Value} {hook : String}

theorem holdsHook_iff : h.HoldsHook v hook ↔ h.metamethod v hook ≠ .nil := by
  unfold HoldsHook metamethod
  cases h.metatable? v with
  | none => simp
  | some metatable => simp

theorem provides_union {a b : Capabilities} :
    h.Provides v (a.union b) ↔ h.Provides v a ∧ h.Provides v b := by
  unfold Provides
  constructor
  · rintro (htable | ⟨metatable, hmetatable, hhooks⟩)
    · exact ⟨Or.inl htable, Or.inl htable⟩
    · exact ⟨Or.inr ⟨metatable, hmetatable, fun hook hneeds =>
          hhooks hook (Capabilities.needs_union.mpr (Or.inl hneeds))⟩,
        Or.inr ⟨metatable, hmetatable, fun hook hneeds =>
          hhooks hook (Capabilities.needs_union.mpr (Or.inr hneeds))⟩⟩
  · rintro ⟨htable | ⟨metatable, hmetatable, ha⟩, hb⟩
    · exact Or.inl htable
    · rcases hb with htable | ⟨metatable', hmetatable', hb⟩
      · exact Or.inl htable
      · obtain rfl : metatable = metatable' := Option.some.inj (hmetatable.symm.trans hmetatable')
        refine Or.inr ⟨metatable, hmetatable, fun hook hneeds => ?_⟩
        exact (Capabilities.needs_union.mp hneeds).elim (ha hook) (hb hook)

theorem provides_iff (hv : ∀ id, v ≠ .table id) {metatable : TableId}
    (hmetatable : h.metatable? v = some metatable) {required : Capabilities} :
    h.Provides v required ↔
      ∀ hook, required.Needs hook → (h.table metatable).getString hook ≠ .nil := by
  constructor
  · rintro (⟨id, hid⟩ | ⟨metatable', hmetatable', hhooks⟩)
    · exact absurd hid (hv id)
    · obtain rfl : metatable = metatable' := Option.some.inj (hmetatable.symm.trans hmetatable')
      exact hhooks
  · exact fun hhooks => Or.inr ⟨metatable, hmetatable, hhooks⟩

theorem not_provides_of_none (hv : ∀ id, v ≠ .table id) (hnone : h.metatable? v = none)
    (required : Capabilities) : ¬h.Provides v required := by
  rintro (⟨id, hid⟩ | ⟨metatable, hmetatable, -⟩)
  · exact hv id hid
  · rw [hnone] at hmetatable
    cases hmetatable

/-- capabilities that need a hook at all are provided by hooks -/
theorem provides_iff_holdsHook (hv : ∀ id, v ≠ .table id) {required : Capabilities}
    (hook : String) (hneeds : required.Needs hook) :
    h.Provides v required ↔ ∀ hook', required.Needs hook' → h.HoldsHook v hook' := by
  cases hmetatable : h.metatable? v with
  | none =>
    refine iff_of_false (not_provides_of_none hv hmetatable required) fun hholds => ?_
    obtain ⟨metatable, hsome, -⟩ := hholds hook hneeds
    rw [hmetatable] at hsome
    cases hsome
  | some metatable =>
    rw [provides_iff hv hmetatable]
    simp only [HoldsHook, hmetatable, Option.some.injEq, exists_eq_left']

theorem provides_reading (hv : ∀ id, v ≠ .table id) :
    h.Provides v .reading ↔ h.HoldsHook v indexHook ∧ h.HoldsHook v lengthHook := by
  rw [provides_iff_holdsHook hv indexHook (Or.inl ⟨rfl, rfl⟩)]
  simp [Capabilities.Needs, Capabilities.reading, or_imp, forall_and]

theorem provides_writing (hv : ∀ id, v ≠ .table id) :
    h.Provides v .writing ↔ h.HoldsHook v newIndexHook := by
  rw [provides_iff_holdsHook hv newIndexHook (Or.inr (Or.inl ⟨rfl, rfl⟩))]
  simp [Capabilities.Needs, Capabilities.writing]

theorem provides_measuring (hv : ∀ id, v ≠ .table id) :
    h.Provides v .measuring ↔ h.HoldsHook v lengthHook := by
  rw [provides_iff_holdsHook hv lengthHook (Or.inr (Or.inr ⟨Or.inl rfl, rfl⟩))]
  simp [Capabilities.Needs, Capabilities.measuring]

end

end Heap

/-! ## the check -/

section
variable {m : Machine} {v : Value} {required : Capabilities}

theorem all_hooks_iff {t : Table} :
    (required.closed.hooks.all fun hook => !(t.getString hook).isNil) = true ↔
      ∀ hook, required.Needs hook → t.getString hook ≠ .nil := by
  rw [List.all_eq_true]
  refine forall_congr' fun hook => ?_
  rw [Capabilities.mem_hooks_closed, Bool.not_eq_true', Value.isNil_eq_false_iff]

theorem check_of_metatable (hv : ∀ id, v ≠ .table id) {metatable : TableId}
    (hmetatable : m.heap.metatable? v = some metatable) (call : Caller) (position : Nat)
    (function : String) (required : Capabilities) :
    ((Machine.host call).checkCollection (some v) position function required).run m
      = if required.closed.hooks.all fun hook => !((m.heap.table metatable).getString hook).isNil
        then .ok (.protocol v metatable) m
        else .error ⟨.wrongType position function "table" (some v.typeName), []⟩ m := by
  refine checkCollection_of_field hv ?_ (fun hook => rfl) position function required
  exact congrArg (EStateM.Result.ok · m) hmetatable

theorem check_of_provides (hprovides : m.heap.Provides v required) (position : Nat)
    (function : String) :
    ∃ c : Collection, c.value = v ∧ ∀ call : Caller,
      ((Machine.host call).checkCollection (some v) position function required).run m
        = .ok c m := by
  by_cases htable : ∃ id, v = .table id
  · obtain ⟨id, rfl⟩ := htable
    exact ⟨.native id, rfl, fun _ => rfl⟩
  · obtain ⟨metatable, hmetatable, hhooks⟩ := hprovides.resolve_left htable
    refine ⟨.protocol v metatable, rfl, fun call => ?_⟩
    rw [check_of_metatable (not_exists.mp htable) hmetatable, if_pos (all_hooks_iff.mpr hhooks)]

theorem check_of_not_provides (hprovides : ¬m.heap.Provides v required) (position : Nat)
    (function : String) (call : Caller) :
    ((Machine.host call).checkCollection (some v) position function required).run m
      = .error ⟨.wrongType position function "table" (some v.typeName), []⟩ m := by
  have hv : ∀ id, v ≠ .table id := fun id hid => hprovides (Or.inl ⟨id, hid⟩)
  cases hmetatable : m.heap.metatable? v with
  | none =>
    have hnone : ((Machine.host call).metatable? v).run m = .ok none m :=
      congrArg (EStateM.Result.ok · m) hmetatable
    cases v with
    | table id => exact absurd rfl (hv id)
    | _ =>
      unfold Host.checkCollection
      dsimp only
      rw [run_bind_of_ok hnone]
      rfl
  | some metatable =>
    rw [check_of_metatable hv hmetatable, if_neg]
    exact fun hall => hprovides ((Heap.provides_iff hv hmetatable).mpr (all_hooks_iff.mp hall))

/-- machines agree where the metatable of the value holds the same of the hooks that are needed -/
theorem check_congr {m' : Machine} (hmetatable : m'.heap.metatable? v = m.heap.metatable? v)
    (hsame : ∀ metatable hook, m.heap.metatable? v = some metatable → required.Needs hook →
      ((m'.heap.table metatable).getString hook = .nil ↔
        (m.heap.table metatable).getString hook = .nil))
    (position : Nat) (function : String) (call call' : Caller) :
    (attempt ((Machine.host call').checkCollection (some v) position function required) m').1
      = (attempt ((Machine.host call).checkCollection (some v) position function required) m).1 := by
  by_cases hv : ∃ id, v = .table id
  · obtain ⟨id, rfl⟩ := hv
    rfl
  · have hv := not_exists.mp hv
    cases hsome : m.heap.metatable? v with
    | none =>
      have hnone' : m'.heap.metatable? v = none := hmetatable.trans hsome
      rw [attempt_of_error (check_of_not_provides (Heap.not_provides_of_none hv hsome _) _ _ _),
        attempt_of_error (check_of_not_provides (Heap.not_provides_of_none hv hnone' _) _ _ _)]
    | some metatable =>
      have hall : (required.closed.hooks.all fun hook =>
          !((m'.heap.table metatable).getString hook).isNil)
            = required.closed.hooks.all fun hook =>
              !((m.heap.table metatable).getString hook).isNil := by
        rw [Bool.eq_iff_iff, all_hooks_iff, all_hooks_iff]
        exact forall₂_congr fun hook hneeds => not_congr (hsame metatable hook hsome hneeds)
      have hrun := check_of_metatable hv hsome call position function required
      have hrun' := check_of_metatable hv (hmetatable.trans hsome) call' position function required
      rw [hall] at hrun'
      by_cases hhooks : (required.closed.hooks.all fun hook =>
          !((m.heap.table metatable).getString hook).isNil) = true
      · rw [if_pos hhooks] at hrun hrun'
        rw [attempt_of_ok hrun, attempt_of_ok hrun']
      · rw [if_neg hhooks] at hrun hrun'
        rw [attempt_of_error hrun, attempt_of_error hrun']

theorem check_ok_iff (call : Caller) (position : Nat) (function : String) :
    (∃ c, ((Machine.host call).checkCollection (some v) position function required).run m
      = .ok c m) ↔ m.heap.Provides v required := by
  constructor
  · rintro ⟨c, hrun⟩
    by_contra hprovides
    rw [check_of_not_provides hprovides] at hrun
    cases hrun
  · intro hprovides
    obtain ⟨c, -, hrun⟩ := check_of_provides hprovides position function
    exact ⟨c, hrun call⟩

end

/-! ## accesses -/

/-- An access fails at the value itself: whatever functions do, and however many links may be looked
at, it does not get beyond it. -/
def Refuses {α : Type} (access : Caller → EvalM α) (m : Machine) (v : Value) : Prop :=
  ∀ (call : Caller) (links : Nat), 0 < links → (access call).run (m.withLinks links)
    = .error ⟨.cannotIndex v.typeName, []⟩ (m.withLinks links)

section
variable {m : Machine} {v : Value}

theorem Heap.function_or_link {h : Heap} {hook : String} (hv : ∀ id, v ≠ .table id)
    (hholds : h.HoldsHook v hook) (key : Value) :
    (∃ f, h.metamethod v hook = .function f) ∨ (h.link? hook key v 1).isSome := by
  by_cases hfunction : ∃ f, h.metamethod v hook = .function f
  · exact Or.inl hfunction
  · have hnext : h.link? hook key v 1 = some (h.metamethod v hook) := by
      rw [link?_succ, link?_zero, Option.bind_some, nextLink?_eq_some_iff]
      exact ⟨held_of_not_table hv, rfl, holdsHook_iff.mp hholds, not_exists.mp hfunction⟩
    exact Or.inr (Option.isSome_of_eq_some hnext)

theorem refuses_index_iff (hv : ∀ id, v ≠ .table id) (key : Value) :
    Refuses (fun call => EvalM.index call v key) m v ↔ ¬m.heap.HoldsHook v indexHook := by
  constructor
  · intro hrefuses hholds
    -- with one link a handler is called or lies beyond the limit
    have hone := hrefuses (fun _ _ => pure []) 1 Nat.one_pos
    rcases Heap.function_or_link hv hholds key with ⟨f, hf⟩ | hlink
    · have hat : ReadsAt (fun _ _ => pure []) (m.withLinks 1) v key v :=
        readsAt_link Nat.one_pos (m.heap.link?_zero indexHook key v)
      rw [hat.called f (Heap.held_of_not_table hv) hf] at hone
      cases hone
    · rw [index_of_links _ hlink] at hone
      cases hone
  · intro hmissing call links hlinks
    have hat : ReadsAt call (m.withLinks links) v key v :=
      readsAt_link hlinks (m.heap.link?_zero indexHook key v)
    exact hat.refused hv (not_not.mp (mt Heap.holdsHook_iff.mpr hmissing))

theorem refuses_setIndex_iff (hv : ∀ id, v ≠ .table id) (key new : Value) :
    Refuses (fun call => EvalM.setIndex call v key new) m v ↔
      ¬m.heap.HoldsHook v newIndexHook := by
  constructor
  · intro hrefuses hholds
    have hone := hrefuses (fun _ _ => pure []) 1 Nat.one_pos
    rcases Heap.function_or_link hv hholds key with ⟨f, hf⟩ | hlink
    · have hends : WriteEnds (fun _ _ => pure []) (m.withLinks 1) v key new _ :=
        .called Nat.one_pos (m.heap.link?_zero newIndexHook key v) (Heap.held_of_not_table hv) hf
      rw [hends.run_eq] at hone
      cases hone
    · have hends : WriteEnds (fun _ _ => pure []) (m.withLinks 1) v key new _ := .tooLong hlink
      rw [hends.run_eq] at hone
      cases hone
  · intro hmissing call links hlinks
    have hnil := not_not.mp (mt Heap.holdsHook_iff.mpr hmissing)
    have hends : WriteEnds call (m.withLinks links) v key new _ :=
      .refused hlinks (m.heap.link?_zero newIndexHook key v) hv hnil
    exact hends.run_eq

end

/-- **A value passes as a collection exactly if it is a table or its metatable itself holds every hook
that is needed, and to find this out nothing is called and nothing is changed.**  So the answer is the
same in all machines where the metatable holds the same of these hooks, and two sets of capabilities
are provided together exactly if each of them is.  A value that is no table refuses to be read, under
any key, exactly if the hook for reading is not held in this way, and to be written exactly if that
for writing is not. -/
theorem check_exact (m : Machine) (v : Value) (position : Nat) (function : String)
    (required : Capabilities) :
    (m.heap.Provides v required → ∃ c : Collection, c.value = v ∧ ∀ call : Caller,
      ((Machine.host call).checkCollection (some v) position function required).run m
        = .ok c m) ∧
    (¬m.heap.Provides v required → ∀ call : Caller,
      ((Machine.host call).checkCollection (some v) position function required).run m
        = .error ⟨.wrongType position function "table" (some v.typeName), []⟩ m) ∧
    (∀ m' : Machine, m'.heap.metatable? v = m.heap.metatable? v →
      (∀ metatable hook, m.heap.metatable? v = some metatable → required.Needs hook →
        ((m'.heap.table metatable).getString hook = .nil ↔
          (m.heap.table metatable).getString hook = .nil)) →
      ∀ call call' : Caller,
        (attempt ((Machine.host call').checkCollection (some v) position function required) m').1
          = (attempt ((Machine.host call).checkCollection (some v) position function required)
              m).1) ∧
    (∀ (call : Caller) (other : Capabilities),
      (∃ c, ((Machine.host call).checkCollection (some v) position function
          (required.union other)).run m = .ok c m) ↔
        (∃ c, ((Machine.host call).checkCollection (some v) position function required).run m
          = .ok c m) ∧
        ∃ c, ((Machine.host call).checkCollection (some v) position function other).run m
          = .ok c m) ∧
    ((∀ id, v ≠ .table id) →
      (∀ key, Refuses (fun call => EvalM.index call v key) m v ↔
        ¬m.heap.HoldsHook v indexHook) ∧
      (∀ key new, Refuses (fun call => EvalM.setIndex call v key new) m v ↔
        ¬m.heap.HoldsHook v newIndexHook) ∧
      (m.heap.Provides v .reading ↔
        m.heap.HoldsHook v indexHook ∧ m.heap.HoldsHook v lengthHook) ∧
      (m.heap.Provides v .writing ↔ m.heap.HoldsHook v newIndexHook) ∧
      (m.heap.Provides v .measuring ↔ m.heap.HoldsHook v lengthHook)) ∧
    ∀ type : TypeName, (Fault.cannotIndex type).kind = .type ∧
      (Fault.cannotIndex type).message = "attempt to index a " ++ type.text ++ " value" := by
  refine ⟨fun hprovides => check_of_provides hprovides position function,
    fun hprovides call => check_of_not_provides hprovides position function call,
    fun m' hmetatable hsame call call' => check_congr hmetatable hsame position function call call',
    fun call other => ?_, fun hv => ⟨refuses_index_iff hv, refuses_setIndex_iff hv,
      Heap.provides_reading hv, Heap.provides_writing hv, Heap.provides_measuring hv⟩,
    fun _ => ⟨rfl, rfl⟩⟩
  rw [check_ok_iff, check_ok_iff, check_ok_iff, Heap.provides_union]

/-- An opaque object whose metatable holds a hook for writing, and inherits from a metatable of its own
hooks for everything. -/
def inheriting : Machine where
  heap := {
    tables := ⟨#[{}, { ({} : Table).setString newIndexHook (.function ⟨0⟩) with
        metatable := some ⟨2⟩ },
      ({} : Table).setString indexHook (.table ⟨3⟩),
      ((({} : Table).setString indexHook (.function ⟨0⟩)).setString newIndexHook
        (.function ⟨0⟩)).setString lengthHook (.function ⟨0⟩)]⟩
    userdata := ⟨#[⟨some ⟨1⟩⟩]⟩ }
  globals := ⟨0⟩
  limits := {}

/-- the object may be written and not read, though its metatable answers for all hooks -/
theorem check_exact_inheriting :
    (EvalM.index EvalM.call (.table ⟨1⟩) (.string indexHook)).run inheriting
        = .ok (.function ⟨0⟩) inheriting ∧
      ((Machine.host EvalM.call).checkCollection (some (.userdata ⟨0⟩)) 1 "sort" .reading).run
          inheriting
        = .error ⟨.wrongType 1 "sort" "table" (some .userdata), []⟩ inheriting ∧
      (∃ c : Collection, c.value = .userdata ⟨0⟩ ∧ ∀ call : Caller,
        ((Machine.host call).checkCollection (some (.userdata ⟨0⟩)) 1 "sort" .writing).run
          inheriting = .ok c inheriting) ∧
      (∀ key, Refuses (fun call => EvalM.index call (.userdata ⟨0⟩) key) inheriting
        (.userdata ⟨0⟩)) ∧
      ¬Refuses (fun call => EvalM.setIndex call (.userdata ⟨0⟩) (.integer 1) .nil) inheriting
        (.userdata ⟨0⟩) := by
  have hother : ∀ id, Value.userdata ⟨0⟩ ≠ .table id := fun id hid => Value.noConfusion hid
  have hreading : ¬inheriting.heap.HoldsHook (.userdata ⟨0⟩) indexHook := by
    rw [Heap.holdsHook_iff]
    decide
  have hwriting : inheriting.heap.HoldsHook (.userdata ⟨0⟩) newIndexHook := by
    rw [Heap.holdsHook_iff]
    decide
  obtain ⟨-, hrefused, -, -, haccess, -⟩ := check_exact inheriting (.userdata ⟨0⟩) 1 "sort" .reading
  obtain ⟨hpasses, -⟩ := check_exact inheriting (.userdata ⟨0⟩) 1 "sort" .writing
  obtain ⟨hindex, hsetIndex, hreads, hwrites, -⟩ := haccess hother
  refine ⟨rfl, hrefused (fun h => hreading (hreads.mp h).1) EvalM.call,
    hpasses (hwrites.mpr hwriting), fun key => (hindex key).mpr hreading, fun h => ?_⟩
  exact (hsetIndex (.integer 1) .nil).mp h hwriting

end ScriptTables
