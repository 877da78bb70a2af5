import ScriptTables.Proofs.Sort.Native
import ScriptTables.Proofs.Sort.Parallel
import ScriptTables.Script.Report

/-!
# A sort loses nothing

A comparator may answer anything, remember what it was asked, and fail when it likes.  As long as it
leaves the table and its metatable alone, a sort of the table only permutes the elements: after it has
come to its end, and just as well when it was broken off.

* `Undisturbed`       a table and its metatable are as they were;
* `Undisturbing`      a comparator that leaves them so;
* `OnlyRearranged`    what may have happened to a table;
* `sort_rearranges`   no more than that happens in a sort.
-/

namespace ScriptTables

structure Undisturbed (id : TableId) (m m' : Machine) : Prop where
  table : m'.heap.table id = m.heap.table id
  metatable : ∀ mt, (m.heap.table id).metatable = some mt → m'.heap.table mt = m.heap.table mt

/-- a question about two elements leaves the table alone, whatever was asked and exchanged before,
and whether it is answered or fails -/
def Undisturbing (call : Caller) (id : TableId) (comparator : Option Value) (m : Machine) : Prop :=
  let elements := (m.heap.table id).range 1 (m.heap.table id).count
  ∀ t, Slots.Meets (listSlots call id comparator) (m.heap.table id).count (· ∈ elements) m t →
    ∀ a ∈ elements, ∀ b ∈ elements,
      Undisturbed id t (finalState (((Machine.host call).precedes comparator a b).run t))

structure OnlyRearranged (id : TableId) (m m' : Machine) : Prop where
  elements : (m.heap.table id).Rearranged 1 (m.heap.table id).count (m'.heap.table id)
  /-- the metatable holds what it held, unless the table is its own metatable -/
  metatable : ∀ mt, (m.heap.table id).metatable = some mt → mt ≠ id →
    m'.heap.table mt = m.heap.table mt

section
variable {id : TableId} {m t t' : Machine}

theorem Undisturbed.metamethod (h : Undisturbed id t t') (event : String) :
    t'.heap.metamethod (.table id) event = t.heap.metamethod (.table id) event := by
  refine Heap.metamethod_congr ?_ fun mt hmt => ?_
  · show (t'.heap.table id).metatable = (t.heap.table id).metatable
    rw [h.table]
  · rw [h.metatable mt hmt]

theorem Undisturbed.plain (h : Undisturbed id t t') (hp : t.heap.Plain id) : t'.heap.Plain id where
  wellFormed := h.table ▸ hp.wellFormed
  reading := by rw [h.metamethod, hp.reading]
  writing := by rw [h.metamethod, hp.writing]

/-- what a sort of `n` elements has done to the table so far -/
structure Conserved (id : TableId) (n : Nat) (m t : Machine) : Prop where
  kept : Kept id n m t
  metatable : ∀ mt, (m.heap.table id).metatable = some mt → mt ≠ id →
    t.heap.table mt = m.heap.table mt

namespace Conserved

variable {n : Nat}

theorem refl (hp : m.heap.Plain id) : Conserved id n m m := ⟨Kept.refl hp, fun _ _ _ => rfl⟩

theorem undisturbed (h : Conserved id n m t) (ht : Undisturbed id t t') : Conserved id n m t' where
  kept := h.kept.of_table_eq ht.table (ht.plain h.kept.plain)
  metatable mt hmt hne := by
    rw [ht.metatable mt (h.kept.metatable.trans hmt), h.metatable mt hmt hne]

theorem exchange (h : Conserved id n m t) (hn : n < 2 ^ 63) {i j : Nat} (hi : 1 ≤ i ∧ i ≤ n)
    (hj : 1 ≤ j ∧ j ≤ n) : Conserved id n m (t.exchange id i j) where
  kept := h.kept.exchange hn hi hj
  metatable mt hmt hne := by
    rw [table_exchange_of_ne hne, h.metatable mt hmt hne]

theorem onlyRearranged (h : Conserved id (m.heap.table id).count m t) : OnlyRearranged id m t :=
  ⟨h.kept.rearranged h.kept.arranged, h.metatable⟩

end Conserved

/-- one step of a sort, with any comparator: it leaves the table conserved, and on success leads to a
state that asking and exchanging lead to -/
theorem confined_listSlots (call : Caller) (comparator : Option Value)
    (hask : Undisturbing call id comparator m) :
    Slots.Confined (listSlots call id comparator) (m.heap.table id).count
      (fun t => Conserved id (m.heap.table id).count m t ∧
        Slots.Meets (listSlots call id comparator) (m.heap.table id).count
          (· ∈ (m.heap.table id).range 1 (m.heap.table id).count) m t)
      (· ∈ (m.heap.table id).range 1 (m.heap.table id).count)
      (fun _ t => Conserved id (m.heap.table id).count m t) where
  get i hi hin := by
    intro t ht
    have hn := (m.heap.table id).count_lt
    rw [listSlots_get call comparator ht.1.kept.plain (by omega)]
    by_cases hm : t.limits.maxMetaChain = 0
    · rw [if_pos hm]
      exact ht.1
    · rw [if_neg hm]
      exact ⟨ht.1.kept.element_mem ⟨hi, hin⟩, ht⟩
  swap i j hi hin hj hjn := by
    intro t ht
    have hn := (m.heap.table id).count_lt
    have hswap := listSlots_swap call comparator ht.1.kept.plain (i := i) (j := j)
      (by omega) (by omega)
    rw [hswap]
    by_cases hm : t.limits.maxMetaChain = 0
    · rw [if_pos hm]
      exact ht.1
    · rw [if_neg hm] at hswap ⊢
      exact ⟨ht.1.exchange hn ⟨hi, hin⟩ ⟨hj, hjn⟩, ht.2.exchanged hi hin hj hjn hswap⟩
  less a b ha hb := by
    intro t ht
    have hundisturbed := hask t ht.2 a ha b hb
    cases hr : ((Machine.host call).precedes comparator a b).run t with
    | ok less t' =>
      rw [hr] at hundisturbed
      have hless : ((listSlots call id comparator).less a b).run t = .ok less t' := hr
      rw [hless]
      exact ⟨ht.1.undisturbed hundisturbed, ht.2.asked ha hb hless⟩
    | error e t' =>
      rw [hr] at hundisturbed
      have hless : ((listSlots call id comparator).less a b).run t = .error e t' := hr
      rw [hless]
      exact ht.1.undisturbed hundisturbed

/-- **Whatever the comparator answers, and also when it fails, a sort only permutes the elements.** -/
theorem sort_rearranges (call : Caller) (id : TableId) (comparator : Option FunctionId)
    (m : Machine) (hp : m.heap.Plain id)
    (hask : Undisturbing call id (comparator.map .function) m) :
    OnlyRearranged id m
      (finalState (((Machine.host call).sort (.table id) (comparatorValue comparator)).run m)) ∧
    ∀ args, argument? args 1 = some (.table id) →
      argumentOrNil args 2 = comparatorValue comparator →
      OnlyRearranged id m (finalState (((Machine.host call).library .sort args).run m)) := by
  have hstart := (Conserved.refl hp : Conserved id (m.heap.table id).count m m)
  have hslots := (confined_listSlots call (comparator.map .function) hask).sortRange
    (depthBudget (m.heap.table id).count) (Nat.le_refl 1) (Nat.le_refl _)
  have hsort : Ends (· = m)
      ((listSlots call id (comparator.map .function)).sort (m.heap.table id).count)
      (fun _ => OnlyRearranged id m) (fun _ => OnlyRearranged id m) := by
    refine hslots.mono (fun s hs => ?_) (fun _ t ht => ht.1.onlyRearranged)
      fun _ t ht => ht.onlyRearranged
    subst hs
    exact ⟨hstart, Slots.Meets.start⟩
  have hends := ends_sort (fun _ => hstart.onlyRearranged) (fun _ => hstart.onlyRearranged) hsort
  exact ⟨hends.1.finalState, fun args h₁ h₂ => (hends.2 args h₁ h₂).finalState⟩

end

/-! ## a comparator that is always true -/

theorem finalState_precedes (call : Caller) (f a b : Value) (t : Machine) :
    finalState (((Machine.host call).precedes (some f) a b).run t)
      = finalState ((call f [a, b]).run t) := by
  show finalState ((do
    let answer ← tryCatch (EvalM.callFirst call f [a, b]) _
    pure answer.isTruthy : EvalM Bool).run t) = _
  rw [run_bind, run_tryCatch, EvalM.callFirst, run_bind]
  cases (call f [a, b]).run t <;> rfl

/-- a comparator to which everything is below everything -/
def alwaysBelow : Function :=
  ⟨"always", .script [.mk (.finish [.single (.value (.boolean true))]) none]⟩

theorem call_alwaysBelow {f : FunctionId} {t : Machine} (hf : t.heap.function f = alwaysBelow)
    (args : List Value) : finalState ((EvalM.call (.function f) args).run t) = t := by
  show finalState ((EvalM.callAt t.limits.maxCallDepth (.function f) args).run t) = t
  cases t.limits.maxCallDepth with
  | zero => rfl
  | succ level =>
    rw [EvalM.callAt, run_bind]
    show finalState (EStateM.run (if decide (t.limits.maxCallDepth ≤ t.depth) = true
      then fail .stackOverflow
      else EvalM.nested (EvalM.dispatch (EvalM.callAt level) (.function f) args)) t) = t
    split
    · rfl
    · have hcode : EvalM.dispatch (EvalM.callAt level) (.function f) args
          { t with depth := t.depth + 1 } = .ok [.boolean true] { t with depth := t.depth + 1 } := by
        show EvalM.runCode (EvalM.callAt level) (t.heap.function f).code args
          { t with depth := t.depth + 1 } = _
        rw [hf]
        rfl
      rw [EStateM.run, EvalM.nested, hcode]
      rfl

theorem undisturbing_alwaysBelow {m : Machine} {id : TableId} {f : FunctionId}
    (hp : m.heap.Plain id) (hf : m.heap.function f = alwaysBelow) :
    Undisturbing EvalM.call id (some (.function f)) m := by
  have hask : ∀ t : Machine, t.heap.function f = alwaysBelow → ∀ a b, finalState
      (((Machine.host EvalM.call).precedes (some (.function f)) a b).run t) = t := by
    intro t ht a b
    rw [finalState_precedes, call_alwaysBelow ht]
  intro t ht a _ b _
  have hinv := ht.of_unchanged (I := fun t => t.heap.function f = alwaysBelow)
    (m.heap.table id).count_lt hp hf (fun t ht a b _ _ => hask t ht a b) fun _ _ _ ht => ht
  rw [hask t hinv.2 a b]
  exact ⟨rfl, fun _ _ => rfl⟩

def holed : Machine where
  heap := (({} : Heap).pushTable (.ofList [.integer 2, .nil, .integer 1])).pushFunction alwaysBelow
  globals := ⟨0⟩
  limits := {}

theorem plain_holed : holed.heap.Plain ⟨0⟩ := ⟨Table.WellFormed.ofList _, rfl, rfl⟩

theorem sort_rearranges_holed :
    holed.heap.Plain ⟨0⟩ ∧ Undisturbing EvalM.call ⟨0⟩ (some (.function ⟨0⟩)) holed ∧
    OnlyRearranged ⟨0⟩ holed (finalState
      (((Machine.host EvalM.call).sort (.table ⟨0⟩) (.function ⟨0⟩)).run holed)) :=
  have hask := undisturbing_alwaysBelow plain_holed rfl
  ⟨plain_holed, hask, (sort_rearranges EvalM.call ⟨0⟩ (some ⟨0⟩) holed plain_holed hask).1⟩

end ScriptTables
