import ScriptTables.Proofs.Library.Substitution
import ScriptTables.Script.Report

/-!
# The count of running calls

The machine counts the calls that are running.  Hooks may run comparators that run hooks, errors may
be raised and caught at any level: after an operation the count is what it was before, and during it
the count is at least that and at most the limit.  So calls that failed leave nothing behind but
what they did to the heap and to the session.

* `Operation x`         what the machine does when it is told how to call values;
* `Operation.agree`     with two ways to call that agree an operation is one;
* `EvalM.watched`       a way to call that does something else where the count is out of bounds;
* `call_watched`        between the count at the start and the limit it never does;
* `Later m m'`          operations, done or failed, lead from `m` to `m'`;
* `calls_bracketed`     all of it.
-/

namespace ScriptTables

/-! ## operations -/

inductive Operation : {α : Type} → (Caller → EvalM α) → Prop
  | call (callee : Value) (args : List Value) : Operation fun call => call callee args
  | callFirst (callee : Value) (args : List Value) :
      Operation fun call => EvalM.callFirst call callee args
  | index (object key : Value) : Operation fun call => EvalM.index call object key
  | setIndex (object key v : Value) : Operation fun call => EvalM.setIndex call object key v
  | length (v : Value) : Operation fun call => EvalM.length call v
  | lessThan (a b : Value) : Operation fun call => EvalM.lessThan call a b
  /-- an operation or a function of the library -/
  | library (list : Value) (c : ListCall) : Operation fun call => c.run (Machine.host call) list
  /-- a step of a script, with any operands -/
  | step (s : Step) : Operation fun call => runStep call s

namespace Operation

variable {P : Machine → Prop} {α : Type} {x : Caller → EvalM α}

theorem agree {call call' : Caller} (hx : Operation x) (hP : Steady P)
    (hcall : Caller.Agree P call call') : Agree P (x call) (x call') := by
  cases hx with
  | call callee args => exact hcall callee args
  | callFirst callee args => exact Steady.callFirst hcall callee args
  | index object key => exact Steady.index hcall object key
  | setIndex object key v => exact hP.setIndex hcall object key v
  | length v => exact Steady.length hcall v
  | lessThan a b => exact Steady.lessThan hcall a b
  | library list c => exact (hP.host hcall).listCall list c
  | step s => exact hP.runStep hcall s

theorem lasts (hx : Operation x) (hP : Lasting P) : Keeps P (x EvalM.call) :=
  (hx.agree hP.toSteady fun callee args => (hP.call callee args).agree).keeps

end Operation

/-! ## the bounds -/

def Machine.Within (low high : Nat) (m : Machine) : Prop := low ≤ m.depth ∧ m.depth ≤ high

instance (low high : Nat) (m : Machine) : Decidable (m.Within low high) :=
  inferInstanceAs (Decidable (_ ∧ _))

namespace EvalM

/-- run something if the count is within bounds before and after it, and else something other -/
def within {α : Type} (low high : Nat) (alarm x : EvalM α) : EvalM α := fun m =>
  if m.Within low high ∧ (finalState (x.run m)).Within low high then x.run m else alarm.run m

/-- A call with so many levels left.  The count is looked at when a call is asked for, when it
begins to run, when what runs in it has ended, and when the call is over. -/
def callWatched (low high : Nat) (alarm : Caller) : Nat → Caller
  | 0, _, _ => fail .stackOverflow
  | level + 1, callee, args => within low high (alarm callee args) do
    if ← atLimit then fail .stackOverflow
    else nested (within low high (alarm callee args)
      (dispatch (callWatched low high alarm level) callee args))

/-- calls as the machine makes them, but for the alarm where the count is out of bounds -/
def watched (low high : Nat) (alarm : Caller) : Caller := fun callee args => do
  let levels ← observe fun m => m.limits.maxCallDepth
  callWatched low high alarm levels callee args

end EvalM

section
variable {low high : Nat}

theorem agree_within {P : Machine → Prop} {α : Type} {x y : EvalM α} (h : Agree P x y)
    (hP : ∀ m, P m → m.Within low high) (alarm : EvalM α) :
    Agree P x (EvalM.within low high alarm y) := by
  apply agree_iff.mpr
  intro m hm
  obtain ⟨hrun, hfinal⟩ := agree_iff.mp h m hm
  have hwithin : (EvalM.within low high alarm y).run m = y.run m := by
    rw [hrun] at hfinal
    exact if_pos ⟨hP m hm, hP _ hfinal⟩
  rw [hwithin]
  exact ⟨hrun, hfinal⟩

variable {limits : Limits} {depth : Nat}

theorem Running.within (hlow : low ≤ depth) (hhigh : depth ≤ high) :
    ∀ m, Running limits depth m → m.Within low high := by
  intro m hm
  rw [Machine.Within, hm.2]
  exact ⟨hlow, hhigh⟩

/-- By induction on the levels: a call that is not at the limit runs with a count of one more, which
is at most the limit. -/
theorem callAt_watched (alarm : Caller) (hlimit : limits.maxCallDepth ≤ high) (levels : Nat) :
    ∀ depth, low ≤ depth → depth ≤ high → Caller.Agree (Running limits depth)
      (EvalM.callAt levels) (EvalM.callWatched low high alarm levels) := by
  induction levels with
  | zero => exact fun depth _ _ callee args => InStep.fail _
  | succ levels ih =>
    intro depth hlow hhigh callee args
    refine agree_within ?_ (Running.within hlow hhigh) _
    apply agree_iff.mpr
    intro m hm
    rw [EvalM.callAt]
    by_cases hfull : m.limits.maxCallDepth ≤ m.depth
    · rw [atLimit_run hfull, atLimit_run hfull]
      exact ⟨rfl, hm⟩
    · have hbelow : depth + 1 ≤ high := by
        rw [hm.1, hm.2] at hfull
        omega
      have hdispatch := (steady_running limits (depth + 1)).dispatch
        (ih (depth + 1) (by omega) hbelow) callee args
      have hinner := agree_within hdispatch
        (Running.within (Nat.le_succ_of_le hlow) hbelow) (alarm callee args)
      rw [not_atLimit_run (Nat.lt_of_not_le hfull), not_atLimit_run (Nat.lt_of_not_le hfull)]
      exact agree_iff.mp (nested_running hinner) m hm

/-- **Calls that are watched between the count at their start and the limit are calls.** -/
theorem call_watched (alarm : Caller) (hlimit : limits.maxCallDepth ≤ high) (hlow : low ≤ depth)
    (hhigh : depth ≤ high) :
    Caller.Agree (Running limits depth) EvalM.call (EvalM.watched low high alarm) :=
  fun callee args => (Agree.observe _).bind_eq fun levels =>
    callAt_watched alarm hlimit levels depth hlow hhigh callee args

end

/-! ## what calls leave behind -/

/-- Operations lead from one machine to the other, be they done or failed.  Between two steps of a
program the log is emptied. -/
inductive Later (m : Machine) : Machine → Prop
  | refl : Later m m
  | emptied {m' : Machine} : Later m m' → Later m m'.clearLog
  | after {m' : Machine} {α : Type} {x : Caller → EvalM α} : Later m m' → Operation x →
      Later m (finalState ((x EvalM.call).run m'))

section
variable {α : Type} {x : Caller → EvalM α} {m m' a b : Machine}

theorem Operation.agree_watched (hx : Operation x) (m : Machine) (alarm : Caller) :
    Agree (Running m.limits m.depth) (x EvalM.call)
      (x (EvalM.watched m.depth (max m.depth m.limits.maxCallDepth) alarm)) :=
  hx.agree (steady_running _ _) (call_watched alarm (Nat.le_max_right _ _) (Nat.le_refl _)
    (Nat.le_max_left _ _))

theorem Operation.running (hx : Operation x) (m : Machine) :
    Running m.limits m.depth (finalState ((x EvalM.call).run m)) :=
  (agree_iff.mp (hx.agree_watched m EvalM.call) m ⟨rfl, rfl⟩).2

theorem lasting_globals (id : TableId) : Lasting fun m => m.globals = id where
  heap _ _ _ hm := hm
  session _ _ hm := hm
  depth _ _ hm := hm

theorem Later.running (h : Later m m') : Running m.limits m.depth m' := by
  induction h with
  | refl => exact ⟨rfl, rfl⟩
  | emptied _ ih => exact ih
  | @after m' _ x _ hx ih =>
    have hafter := hx.running m'
    rw [ih.1, ih.2] at hafter
    exact hafter

theorem Later.globals (h : Later m m') : m'.globals = m.globals := by
  induction h with
  | refl => rfl
  | emptied _ ih => exact ih
  | after _ hx ih => exact keeps_iff.mp (hx.lasts (lasting_globals m.globals)) _ ih

/-- after any two histories there is nothing to tell apart but heap and session -/
theorem Later.eq (ha : Later m a) (hb : Later m b) (hheap : a.heap = b.heap)
    (hsession : a.session = b.session) : a = b := by
  have hglobals : a.globals = b.globals := ha.globals.trans hb.globals.symm
  have hlimits : a.limits = b.limits := ha.running.1.trans hb.running.1.symm
  have hdepth : a.depth = b.depth := ha.running.2.trans hb.running.2.symm
  cases a
  cases b
  simp only [Machine.mk.injEq]
  exact ⟨hheap, hglobals, hlimits, hdepth, hsession⟩

end

/-- **An operation leaves the count of running calls as it found it, and while it runs the count
stays between that and the limit**, so that no alarm makes a difference, whatever it would do; a
count above the limit can only be there from the start.  **After any two histories of operations, of
which any may have failed, an operation has the same outcome and effects if heap and session are the
same.** -/
theorem calls_bracketed {α : Type} {x : Caller → EvalM α} (hx : Operation x) (m : Machine) :
    (finalState ((x EvalM.call).run m)).depth = m.depth ∧
    (∀ alarm : Caller,
      (x (EvalM.watched m.depth (max m.depth m.limits.maxCallDepth) alarm)).run m
        = (x EvalM.call).run m) ∧
    ∀ a b : Machine, Later m a → Later m b → a.heap = b.heap → a.session = b.session →
      (x EvalM.call).run a = (x EvalM.call).run b := by
  refine ⟨(hx.running m).2, fun alarm => ?_, fun a b ha hb hheap hsession => ?_⟩
  · exact ((hx.agree_watched m alarm).run_eq ⟨rfl, rfl⟩).symm
  · rw [ha.eq hb hheap hsession]

/-- a function that calls itself until that fails, catches the error and raises another one -/
def recursing : Machine where
  heap := { functions := ⟨#[⟨"again", .script [
    .mk (.attempt [.mk (.call (.value (.function ⟨0⟩)) []) none]) none,
    .mk (.raise (.raised .argument "again") []) none]⟩]⟩ }
  globals := ⟨0⟩
  limits := { maxCallDepth := 2 }

theorem calls_bracketed_recursing :
    Operation (fun call => call (.function ⟨0⟩) []) ∧
    (finalState ((EvalM.call (.function ⟨0⟩) []).run recursing)).depth = 0 ∧
    (∀ alarm, (EvalM.watched 0 2 alarm (.function ⟨0⟩) []).run recursing
      = .error ⟨.raised .argument "again", []⟩ recursing) ∧
    Later recursing (finalState ((EvalM.call (.function ⟨0⟩) []).run recursing)) ∧
    (EvalM.call (.function ⟨0⟩) []).run (finalState ((EvalM.call (.function ⟨0⟩) []).run recursing))
      = .error ⟨.raised .argument "again", []⟩ recursing := by
  have hx : Operation fun call => call (.function ⟨0⟩) [] := .call (.function ⟨0⟩) []
  have hrun : (EvalM.call (.function ⟨0⟩) []).run recursing
      = .error ⟨.raised .argument "again", []⟩ recursing := rfl
  have hlater : Later recursing (finalState ((EvalM.call (.function ⟨0⟩) []).run recursing)) :=
    .after .refl hx
  have hsame : finalState ((EvalM.call (.function ⟨0⟩) []).run recursing) = recursing := by
    rw [hrun]
    rfl
  obtain ⟨hdepth, hwatched, hagain⟩ := calls_bracketed hx recursing
  refine ⟨hx, hdepth, fun alarm => (hwatched alarm).trans hrun, hlater, ?_⟩
  have hafter := hagain _ recursing hlater .refl (congrArg Machine.heap hsame)
    (congrArg Machine.session hsame)
  exact hafter.trans hrun

end ScriptTables
