import ScriptTables.Proofs.Script.Termination

/-!
# Calls that are passed on

A call of a value that is no function is a call of the hook in its metatable, with the value in front
of the arguments.  The hook may be such a value too.  So a call goes from callee to callee until it
comes to a function or to a value that has no hook, or finds no end, and at each of them one call more
is running.

Which functions a call runs, and how often, does not show in what becomes of the machine.  Therefore
running them is a parameter here: what is true for every way to run functions says so.

* `Heap.PassesTo`           the callees from one to another, in the order in which they are arguments;
* `EvalM.callThrough`       the calls of a machine that runs its functions in another way;
* `call_eq_callThrough`     the calls of the machine itself;
* `EvalM.nestedBy`          something runs inside of so many calls;
* `callThroughAt_of_passes`, `callThroughAt_exhausted`   a call comes to a callee, or to the limit before;
* `exists_longer`           who comes back to itself does so by ways of any length;
* `calls_passed_on`         all of it.
-/

namespace ScriptTables

/-! ## callees -/

namespace Heap

/-- Calls of one value are passed on to another, and the callees on the way are put in front of the
arguments, the last of them first.  Functions have no metatable and so no hook. -/
inductive PassesTo (h : Heap) : Value → List Value → Value → Prop
  | here (last : Value) : PassesTo h last [] last
  | next {callee handler last : Value} {passed : List Value} :
      h.metamethod callee callHook = handler → handler ≠ .nil → PassesTo h handler passed last →
      PassesTo h callee (passed ++ [callee]) last

section
variable {h : Heap} {a b c last : Value} {passed front : List Value}

theorem PassesTo.single (hhandler : h.metamethod a callHook = b) (hne : b ≠ .nil) :
    h.PassesTo a [a] b := .next hhandler hne (.here b)

theorem PassesTo.trans (hab : h.PassesTo a passed b) (hbc : h.PassesTo b front c) :
    h.PassesTo a (front ++ passed) c := by
  induction hab with
  | here last =>
    rw [List.append_nil]
    exact hbc
  | next hhandler hne _ ih =>
    rw [← List.append_assoc]
    exact .next hhandler hne (ih hbc)

theorem PassesTo.exists_longer (hround : h.PassesTo b passed b) (hpassed : passed ≠ []) (n : Nat) :
    ∃ front, n ≤ front.length ∧ h.PassesTo b front b := by
  induction n with
  | zero => exact ⟨[], Nat.zero_le 0, .here b⟩
  | succ n ih =>
    obtain ⟨front, hlength, hfront⟩ := ih
    have hpositive := List.length_pos_iff.mpr hpassed
    refine ⟨passed ++ front, ?_, hfront.trans hround⟩
    rw [List.length_append]
    omega

/-- calls are passed on so often, or they come to a value that passes nothing on -/
theorem exists_passesTo (h : Heap) (callee : Value) (n : Nat) :
    (∃ passed last, h.PassesTo callee passed last ∧ passed.length < n ∧
        h.metamethod last callHook = .nil) ∨
      ∃ passed last, h.PassesTo callee passed last ∧ passed.length = n := by
  induction n with
  | zero => exact Or.inr ⟨[], callee, .here callee, rfl⟩
  | succ n ih =>
    rcases ih with ⟨passed, last, hpasses, hlength, hhandler⟩ | ⟨passed, last, hpasses, hlength⟩
    · exact Or.inl ⟨passed, last, hpasses, Nat.lt_succ_of_lt hlength, hhandler⟩
    · by_cases hhandler : h.metamethod last callHook = .nil
      · exact Or.inl ⟨passed, last, hpasses, by omega, hhandler⟩
      · exact Or.inr ⟨last :: passed, _, hpasses.trans (.single rfl hhandler),
          congrArg (· + 1) hlength⟩

end

end Heap

/-! ## other ways to run functions -/

namespace EvalM

def runFunction (f : FunctionId) (args : List Value) : EvalM (List Value) := do
  let code ← readHeap fun h => (h.function f).code
  runCode call code args

section
variable (invoke : FunctionId → List Value → EvalM (List Value))

/-- run a function in some way, or pass a call on to a hook -/
def dispatchThrough (call : Caller) (callee : Value) (args : List Value) : EvalM (List Value) :=
  match callee with
  | .function f => invoke f args
  | other => dispatch call other args

def callThroughAt : Nat → Caller
  | 0, _, _ => fail .stackOverflow
  | level + 1, callee, args => do
    if ← atLimit then fail .stackOverflow
    else nested (dispatchThrough invoke (callThroughAt level) callee args)

/-- a call from outside of all calls, where functions are run in some way -/
def callThrough : Caller := fun callee args => do
  let levels ← observe fun m => m.limits.maxCallDepth
  callThroughAt invoke levels callee args

end

/-- run something inside of so many calls, however it ends -/
def nestedBy {α : Type} (n : Nat) (x : EvalM α) : EvalM α := fun m =>
  match x { m with depth := m.depth + n } with
  | .ok a m => .ok a { m with depth := m.depth - n }
  | .error e m => .error e { m with depth := m.depth - n }

theorem nestedBy_of_error {α : Type} {n : Nat} {x : EvalM α} {m : Machine} {e : Error}
    (h : x.run { m with depth := m.depth + n } = .error e { m with depth := m.depth + n }) :
    (nestedBy n x).run m = .error e m := by
  have h : x { m with depth := m.depth + n } = .error e { m with depth := m.depth + n } := h
  show nestedBy n x m = _
  simp only [nestedBy, h, Nat.add_sub_cancel]

theorem nested_nestedBy {α : Type} (n : Nat) (x : EvalM α) :
    nested (nestedBy n x) = nestedBy (n + 1) x := by
  funext m
  have hdepth : m.depth + 1 + n = m.depth + (n + 1) := by omega
  simp only [nested, nestedBy, hdepth]
  cases x { m with depth := m.depth + (n + 1) } with
  | ok a m' => simp only [Nat.sub_sub]
  | error e m' => simp only [Nat.sub_sub]

end EvalM

section
variable (invoke : FunctionId → List Value → EvalM (List Value)) (call : Caller)
  {m : Machine} {callee handler last : Value} {passed : List Value} {f : FunctionId}

/-! ## one callee -/

theorem dispatchThrough_function (f : FunctionId) (args : List Value) :
    EvalM.dispatchThrough invoke call (.function f) args = invoke f args := rfl

theorem dispatchThrough_run (hcallee : ∀ f, callee ≠ .function f) (args : List Value) :
    (EvalM.dispatchThrough invoke call callee args).run m
      = (if (m.heap.metamethod callee callHook).isNil then fail (.cannotCall callee.typeName)
        else call (m.heap.metamethod callee callHook) (callee :: args) : EvalM (List Value)).run m := by
  cases callee with
  | function f => exact absurd rfl (hcallee f)
  | _ => rfl

theorem dispatchThrough_of_handler (hhandler : m.heap.metamethod callee callHook = handler)
    (hne : handler ≠ .nil) (args : List Value) :
    (EvalM.dispatchThrough invoke call callee args).run m
      = (call handler (callee :: args)).run m := by
  have hcallee : ∀ f, callee ≠ .function f := by
    rintro f rfl
    exact hne (hhandler.symm.trans (Heap.metamethod_of_none rfl callHook))
  rw [dispatchThrough_run invoke call hcallee, hhandler, if_neg (mt Value.isNil_iff.mp hne)]

theorem dispatchThrough_of_nil (hcallee : ∀ f, callee ≠ .function f)
    (hhandler : m.heap.metamethod callee callHook = .nil) (args : List Value) :
    (EvalM.dispatchThrough invoke call callee args).run m
      = .error ⟨.cannotCall callee.typeName, []⟩ m := by
  rw [dispatchThrough_run invoke call hcallee, hhandler, if_pos (Value.isNil_iff.mpr rfl)]
  rfl

theorem callThroughAt_of_limit (hlimit : m.limits.maxCallDepth ≤ m.depth) (level : Nat)
    (args : List Value) :
    (EvalM.callThroughAt invoke level callee args).run m = .error ⟨.stackOverflow, []⟩ m := by
  cases level with
  | zero => rfl
  | succ level => exact atLimit_run hlimit _

theorem callThroughAt_succ_run (hlevel : m.depth < m.limits.maxCallDepth) (level : Nat)
    (args : List Value) :
    (EvalM.callThroughAt invoke (level + 1) callee args).run m
      = (EvalM.nested (EvalM.dispatchThrough invoke (EvalM.callThroughAt invoke level) callee
          args)).run m :=
  not_atLimit_run hlevel _

theorem dispatch_eq_dispatchThrough (callee : Value) (args : List Value) :
    EvalM.dispatch EvalM.call callee args
      = EvalM.dispatchThrough EvalM.runFunction EvalM.call callee args := by
  cases callee with
  | function f => rfl
  | _ => rfl

/-- By induction on the levels: with one call more running, one level less is enough. -/
theorem call_eq_callThroughAt (level : Nat) :
    ∀ (m : Machine) (callee : Value) (args : List Value),
      m.limits.maxCallDepth ≤ level + m.depth →
      (EvalM.call callee args).run m
        = (EvalM.callThroughAt EvalM.runFunction level callee args).run m := by
  induction level with
  | zero =>
    intro m callee args hlevel
    rw [call_run, if_pos (by omega), callThroughAt_of_limit _ (by omega)]
  | succ level ih =>
    intro m callee args hlevel
    by_cases hlimit : m.limits.maxCallDepth ≤ m.depth
    · rw [call_run, if_pos hlimit, callThroughAt_of_limit _ hlimit]
    · rw [call_run, if_neg hlimit, callThroughAt_succ_run _ (Nat.lt_of_not_le hlimit),
        dispatch_eq_dispatchThrough]
      refine nested_congr ?_
      by_cases hcallee : ∃ f, callee = .function f
      · obtain ⟨f, rfl⟩ := hcallee
        rw [dispatchThrough_function, dispatchThrough_function]
      · have hcallee := not_exists.mp hcallee
        rw [dispatchThrough_run _ _ hcallee, dispatchThrough_run _ _ hcallee]
        split
        · rfl
        · have hinner : m.limits.maxCallDepth ≤ level + (m.depth + 1) := by omega
          exact ih { m with depth := m.depth + 1 } _ _ hinner

theorem call_eq_callThrough : EvalM.call = EvalM.callThrough EvalM.runFunction := by
  funext callee args m
  exact call_eq_callThroughAt _ m callee args (Nat.le_add_right _ _)

/-! ## all callees -/

theorem callThroughAt_of_passes {h : Heap} (hpasses : h.PassesTo callee passed last) (rest : Nat) :
    ∀ (m : Machine) (args : List Value), m.heap = h →
      m.depth + passed.length < m.limits.maxCallDepth →
      (EvalM.callThroughAt invoke (passed.length + 1 + rest) callee args).run m
        = (EvalM.nestedBy (passed.length + 1) (EvalM.dispatchThrough invoke
            (EvalM.callThroughAt invoke rest) last (passed ++ args))).run m := by
  induction hpasses with
  | here last =>
    intro m args _ hlevel
    have hlevels : ([] : List Value).length + 1 + rest = rest + 1 := by
      rw [List.length_nil]
      omega
    rw [hlevels, callThroughAt_succ_run _ hlevel]
    rfl
  | @next callee handler last passed hhandler hne _ ih =>
    rintro m args rfl hlevel
    rw [List.length_append, List.length_singleton] at hlevel ⊢
    have hlevels : passed.length + 1 + 1 + rest = passed.length + 1 + rest + 1 := by omega
    rw [hlevels, callThroughAt_succ_run _ (by omega), ← EvalM.nested_nestedBy]
    refine nested_congr ?_
    have hinner := ih { m with depth := m.depth + 1 } (callee :: args) rfl
      (by rw [Nat.add_right_comm]; exact hlevel)
    rw [dispatchThrough_of_handler _ _ (m := { m with depth := m.depth + 1 }) hhandler hne, hinner,
      List.append_assoc]
    rfl

theorem callThroughAt_exhausted {h : Heap} (hpasses : h.PassesTo callee passed last) :
    ∀ (level : Nat) (m : Machine) (args : List Value), m.heap = h →
      m.limits.maxCallDepth ≤ m.depth + passed.length →
      (EvalM.callThroughAt invoke level callee args).run m = .error ⟨.stackOverflow, []⟩ m := by
  induction hpasses with
  | here last => exact fun level m args _ hlimit => callThroughAt_of_limit invoke hlimit level args
  | @next callee handler last passed hhandler hne _ ih =>
    rintro level m args rfl hlimit
    rw [List.length_append, List.length_singleton] at hlimit
    by_cases hfull : m.limits.maxCallDepth ≤ m.depth
    · exact callThroughAt_of_limit invoke hfull level args
    · cases level with
      | zero => rfl
      | succ level =>
        rw [callThroughAt_succ_run _ (Nat.lt_of_not_le hfull)]
        have hinner := ih level { m with depth := m.depth + 1 } (callee :: args) rfl
          (by rw [Nat.add_right_comm]; exact hlimit)
        refine (nested_congr (y := fail .stackOverflow) ?_).trans rfl
        rw [dispatchThrough_of_handler _ _ (m := { m with depth := m.depth + 1 }) hhandler hne, hinner]
        rfl

theorem callThrough_of_passes (hpasses : m.heap.PassesTo callee passed last)
    (hlevel : m.depth + passed.length + 1 ≤ m.limits.maxCallDepth) (args : List Value) :
    ∃ call : Caller, (EvalM.callThrough invoke callee args).run m
      = (EvalM.nestedBy (passed.length + 1)
          (EvalM.dispatchThrough invoke call last (passed ++ args))).run m := by
  obtain ⟨rest, hrest⟩ : ∃ rest, m.limits.maxCallDepth = passed.length + 1 + rest :=
    Nat.exists_eq_add_of_le (by omega)
  refine ⟨EvalM.callThroughAt invoke rest, ?_⟩
  show (EvalM.callThroughAt invoke m.limits.maxCallDepth callee args).run m = _
  rw [hrest, callThroughAt_of_passes invoke hpasses rest m args rfl hlevel]

theorem callThrough_exhausted (hpasses : m.heap.PassesTo callee passed last)
    (hlimit : ¬m.depth + passed.length + 1 ≤ m.limits.maxCallDepth) (args : List Value) :
    (EvalM.callThrough invoke callee args).run m = .error ⟨.stackOverflow, []⟩ m :=
  callThroughAt_exhausted invoke hpasses _ m args rfl (by omega)

theorem callThrough_function (hpasses : m.heap.PassesTo callee passed (.function f))
    (args : List Value) :
    (EvalM.callThrough invoke callee args).run m
      = if m.depth + passed.length + 1 ≤ m.limits.maxCallDepth
        then (EvalM.nestedBy (passed.length + 1) (invoke f (passed ++ args))).run m
        else .error ⟨.stackOverflow, []⟩ m := by
  split
  · next hlevel =>
    obtain ⟨call, hrun⟩ := callThrough_of_passes invoke hpasses hlevel args
    rw [hrun, dispatchThrough_function]
  · next hlevel => exact callThrough_exhausted invoke hpasses hlevel args

theorem callThrough_of_nil (hpasses : m.heap.PassesTo callee passed last)
    (hlast : ∀ f, last ≠ .function f) (hhandler : m.heap.metamethod last callHook = .nil)
    (args : List Value) :
    (EvalM.callThrough invoke callee args).run m
      = .error ⟨if m.depth + passed.length + 1 ≤ m.limits.maxCallDepth
          then .cannotCall last.typeName else .stackOverflow, []⟩ m := by
  split
  · next hlevel =>
    obtain ⟨call, hrun⟩ := callThrough_of_passes invoke hpasses hlevel args
    rw [hrun]
    refine EvalM.nestedBy_of_error ?_
    exact dispatchThrough_of_nil invoke call (m := { m with depth := m.depth + (passed.length + 1) })
      hlast hhandler _
  · next hlevel => exact callThrough_exhausted invoke hpasses hlevel args

/-- A call fails at the limit and runs no function exactly if it is passed on that often. -/
theorem callThrough_overflow_iff (m : Machine) (callee : Value) (args : List Value) :
    (∀ invoke, (EvalM.callThrough invoke callee args).run m = .error ⟨.stackOverflow, []⟩ m) ↔
      ∃ passed last, m.heap.PassesTo callee passed last ∧
        ¬m.depth + passed.length + 1 ≤ m.limits.maxCallDepth := by
  constructor
  · intro hrun
    by_contra hnone
    have hreached : ∀ passed last, m.heap.PassesTo callee passed last →
        m.depth + passed.length + 1 ≤ m.limits.maxCallDepth :=
      fun passed last hpasses => by_contra fun hlimit => hnone ⟨passed, last, hpasses, hlimit⟩
    rcases m.heap.exists_passesTo callee m.limits.maxCallDepth with
      ⟨passed, last, hpasses, -, hhandler⟩ | ⟨passed, last, hpasses, hlength⟩
    · have hlevel := hreached passed last hpasses
      -- a function that ends well, or an error of another kind
      by_cases hlast : ∃ f, last = .function f
      · obtain ⟨f, rfl⟩ := hlast
        have hends := hrun fun _ _ => pure []
        rw [callThrough_function _ hpasses, if_pos hlevel] at hends
        cases hends
      · have hends := hrun fun _ _ => pure []
        rw [callThrough_of_nil _ hpasses (not_exists.mp hlast) hhandler, if_pos hlevel] at hends
        cases hends
    · have hlevel := hreached passed last hpasses
      omega
  · rintro ⟨passed, last, hpasses, hlimit⟩ invoke
    exact callThrough_exhausted invoke hpasses hlimit args

end

/-- **A call goes from callee to callee until it comes to a function, and runs that once, with all the
callees in front of the arguments, the last of them first.**  This takes one call more than there are
callees; where the limit does not leave so many, the call fails and no function is run.  A call that
comes to a value without a hook fails too, and so does one that comes back to a callee.  Nothing is
changed when a call fails in such a way.  All this holds for every way to run functions, so that it
tells which functions are run and how often. -/
theorem calls_passed_on (m : Machine) (callee : Value) (args : List Value) :
    EvalM.call = EvalM.callThrough EvalM.runFunction ∧
    (∀ invoke passed f, m.heap.PassesTo callee passed (.function f) →
      (EvalM.callThrough invoke callee args).run m
        = if m.depth + passed.length + 1 ≤ m.limits.maxCallDepth
          then (EvalM.nestedBy (passed.length + 1) (invoke f (passed ++ args))).run m
          else .error ⟨.stackOverflow, []⟩ m) ∧
    (∀ invoke passed last, m.heap.PassesTo callee passed last → (∀ f, last ≠ .function f) →
      m.heap.metamethod last callHook = .nil →
      (EvalM.callThrough invoke callee args).run m
        = .error ⟨if m.depth + passed.length + 1 ≤ m.limits.maxCallDepth
            then .cannotCall last.typeName else .stackOverflow, []⟩ m) ∧
    (∀ invoke passed round b, m.heap.PassesTo callee passed b → m.heap.PassesTo b round b →
      round ≠ [] →
      (EvalM.callThrough invoke callee args).run m = .error ⟨.stackOverflow, []⟩ m) ∧
    ((∀ invoke, (EvalM.callThrough invoke callee args).run m = .error ⟨.stackOverflow, []⟩ m) ↔
      ∃ passed last, m.heap.PassesTo callee passed last ∧
        ¬m.depth + passed.length + 1 ≤ m.limits.maxCallDepth) ∧
    (∀ type : TypeName, (Fault.cannotCall type).kind = .type ∧
      (Fault.cannotCall type).message = "attempt to call a " ++ type.text ++ " value") ∧
    Fault.stackOverflow.kind = .runtime ∧ Fault.stackOverflow.message = "stack overflow" := by
  refine ⟨call_eq_callThrough, fun invoke passed f hpasses => ?_,
    fun invoke passed last hpasses hlast hhandler => ?_,
    fun invoke passed round b hpasses hround hne => ?_, callThrough_overflow_iff m callee args,
    fun _ => ⟨rfl, rfl⟩, rfl, rfl⟩
  · exact callThrough_function invoke hpasses args
  · exact callThrough_of_nil invoke hpasses hlast hhandler args
  · obtain ⟨front, hlength, hfront⟩ := hround.exists_longer hne m.limits.maxCallDepth
    refine callThrough_exhausted invoke (hpasses.trans hfront) ?_ args
    rw [List.length_append]
    omega

/-- an opaque object whose calls go to a table, and from there to a function that answers with all its
arguments; and a table that is its own hook for calls -/
def relaying : Machine where
  heap := {
    tables := ⟨#[({ metatable := some ⟨0⟩ } : Table).setString callHook (.table ⟨0⟩),
      ({} : Table).setString callHook (.table ⟨2⟩), { metatable := some ⟨3⟩ },
      ({} : Table).setString callHook (.function ⟨0⟩)]⟩
    userdata := ⟨#[⟨some ⟨1⟩⟩]⟩
    functions := ⟨#[⟨"all", .script [.mk (.finish [.rest 0]) none]⟩]⟩ }
  globals := ⟨0⟩
  limits := { maxCallDepth := 3 }

theorem relaying_table :
    relaying.heap.PassesTo (.table ⟨2⟩) [.table ⟨2⟩] (.function ⟨0⟩) :=
  .single rfl Value.noConfusion

theorem relaying_userdata :
    relaying.heap.PassesTo (.userdata ⟨0⟩) [.table ⟨2⟩, .userdata ⟨0⟩] (.function ⟨0⟩) :=
  have huserdata : relaying.heap.PassesTo (.userdata ⟨0⟩) [.userdata ⟨0⟩] (.table ⟨2⟩) :=
    .single rfl Value.noConfusion
  huserdata.trans relaying_table

/-- three calls are enough for two callees and a function, and two are not -/
theorem calls_passed_on_relaying :
    (EvalM.call (.userdata ⟨0⟩) [.integer 7]).run relaying
        = .ok [.table ⟨2⟩, .userdata ⟨0⟩, .integer 7] relaying ∧
      (EvalM.call (.userdata ⟨0⟩) [.integer 7]).run { relaying with depth := 1 }
        = .error ⟨.stackOverflow, []⟩ { relaying with depth := 1 } ∧
      (EvalM.call (.table ⟨2⟩) []).run { relaying with depth := 1 }
        = .ok [.table ⟨2⟩] { relaying with depth := 1 } ∧
      (EvalM.call (.table ⟨0⟩) []).run relaying = .error ⟨.stackOverflow, []⟩ relaying ∧
      (EvalM.call (.table ⟨1⟩) []).run relaying = .error ⟨.cannotCall .table, []⟩ relaying := by
  obtain ⟨hcall, hfunction, -⟩ := calls_passed_on relaying (.userdata ⟨0⟩) [.integer 7]
  refine ⟨?_, ?_, ?_, ?_, ?_⟩
  · rw [hcall, hfunction _ _ _ relaying_userdata]
    rfl
  · have hdeeper := (calls_passed_on { relaying with depth := 1 } (.userdata ⟨0⟩) [.integer 7]).2.1
    rw [hcall, hdeeper _ _ _ relaying_userdata]
    rfl
  · have hnearer := (calls_passed_on { relaying with depth := 1 } (.table ⟨2⟩) []).2.1
    rw [hcall, hnearer _ _ _ relaying_table]
    rfl
  · have hround : relaying.heap.PassesTo (.table ⟨0⟩) [.table ⟨0⟩] (.table ⟨0⟩) :=
      .single rfl Value.noConfusion
    rw [hcall]
    exact (calls_passed_on relaying (.table ⟨0⟩) []).2.2.2.1 _ [] _ _ (.here _) hround nofun
  · rw [hcall]
    exact (calls_passed_on relaying (.table ⟨1⟩) []).2.2.1 _ [] _ (.here _) nofun rfl

end ScriptTables
