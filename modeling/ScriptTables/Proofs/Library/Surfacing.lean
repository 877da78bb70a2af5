import ScriptTables.Proofs.Library.Stages
import ScriptTables.Proofs.Library.Tracing

/-!
# Errors of user code

User code runs in the middle of a call of the library: in hooks that are asked for lengths, elements
and comparisons, and in comparators.  The first error that comes back from it ends the call, as it
is or, from a comparator, as the cause of an error that says so.

* `Relays x s`             from a state `x` calls one value at most, and fails as that call does;
* `Untouched call m s`     from `m` on nothing was asked but one length at most;
* `FailedAs`               the three ways in which a call of the library fails;
* `tracedStages`           the stages of a traced call;
* `ends_listCall`, `ends_library`   how calls end;
* `errors_surface`         where a request fails the call ends with its error.
-/

namespace ScriptTables

/-! ## relayed errors -/

section
variable {α : Type}

/-- From this state something fails or succeeds in the same way however values are called, or all it
does is to call a value and look at the results. -/
def Relays (x : Caller → EvalM α) (s : Machine) : Prop :=
  (∃ fault, ∀ call, (x call).run s = .error ⟨fault, []⟩ s) ∨
  (∃ a s', ∀ call, (x call).run s = .ok a s') ∨
  ∃ callee arguments, ∃ answer : List Value → α, ∀ call,
    (x call).run s = (do let results ← call callee arguments; pure (answer results)).run s

theorem relays_callFirst (callee : Value) (arguments : List Value) (s : Machine) :
    Relays (fun call => EvalM.callFirst call callee arguments) s :=
  Or.inr (Or.inr ⟨callee, arguments, firstOf, fun _ => rfl⟩)

theorem Relays.readHeap {β : Type} {f : Heap → β} {k : β → Caller → EvalM α} {s : Machine}
    (h : Relays (k (f s.heap)) s) :
    Relays (fun call => EvalM.readHeap f >>= fun b => k b call) s := h

theorem relays_indexFrom (key : Value) (s : Machine) (links : Nat) :
    ∀ object, Relays (fun call => EvalM.indexFrom call key links object) s := by
  induction links with
  | zero => exact fun object => Or.inl ⟨.readChainTooLong, fun _ => rfl⟩
  | succ links ih =>
    intro object
    apply Relays.readHeap
    cases s.heap.readLink object key with
    | stop v => exact Or.inr (Or.inl ⟨v, s, fun _ => rfl⟩)
    | refuse => exact Or.inl ⟨.cannotIndex object.typeName, fun _ => rfl⟩
    | follow handler =>
      cases handler with
      | function f => exact relays_callFirst (.function f) [object, key] s
      | _ => exact ih _

theorem relays_setIndexFrom (key value : Value) (s : Machine) (links : Nat) :
    ∀ object, Relays (fun call => EvalM.setIndexFrom call key value links object) s := by
  induction links with
  | zero => exact fun object => Or.inl ⟨.writeChainTooLong, fun _ => rfl⟩
  | succ links ih =>
    intro object
    apply Relays.readHeap
    cases s.heap.writeLink object key with
    | stop id =>
      show Relays (fun _ => EvalM.rawSet id key value) s
      unfold EvalM.rawSet
      cases Key.ofValue? key with
      | ok k => exact Or.inr (Or.inl ⟨(), _, fun _ => rfl⟩)
      | error fault => exact Or.inl ⟨fault, fun _ => rfl⟩
    | refuse => exact Or.inl ⟨.cannotIndex object.typeName, fun _ => rfl⟩
    | follow handler =>
      cases handler with
      | function f =>
        exact Or.inr (Or.inr ⟨.function f, [object, key, value], fun _ => (), fun _ => rfl⟩)
      | _ => exact ih _

theorem relays_length (v : Value) (s : Machine) : Relays (fun call => EvalM.length call v) s := by
  apply Relays.readHeap
  by_cases hnil : (s.heap.metamethod v lengthHook).isNil = true
  · simp only [if_pos hnil]
    apply Relays.readHeap
    cases s.heap.rawLength? v with
    | some n => exact Or.inr (Or.inl ⟨.integer n, s, fun _ => rfl⟩)
    | none => exact Or.inl ⟨.cannotMeasure v.typeName, fun _ => rfl⟩
  · simp only [if_neg hnil]
    exact relays_callFirst _ [v] s

theorem relays_lessThan (a b : Value) (s : Machine) :
    Relays (fun call => EvalM.lessThan call a b) s := by
  unfold EvalM.lessThan
  cases a.less? b with
  | some less => exact Or.inr (Or.inl ⟨less, s, fun _ => rfl⟩)
  | none =>
    apply Relays.readHeap
    by_cases hnil : (s.heap.lessHandler a b).isNil = true
    · simp only [if_pos hnil]
      exact Or.inl ⟨.cannotCompare a.typeName b.typeName, fun _ => rfl⟩
    · simp only [if_neg hnil]
      apply Or.inr ∘ Or.inr
      refine ⟨s.heap.lessHandler a b, [a, b], fun results => (firstOf results).isTruthy, ?_⟩
      intro call
      simp only [EvalM.callFirst, bind_assoc, pure_bind]

/-- a request of the library to the machine relays the errors of user code -/
def Request.Relays (s : Machine) : Request → Prop
  | .length v => ScriptTables.Relays (fun call => (Machine.host call).length v) s
  | .index object key => ScriptTables.Relays (fun call => (Machine.host call).index object key) s
  | .setIndex object key v =>
    ScriptTables.Relays (fun call => (Machine.host call).setIndex object key v) s
  | .lessThan a b => ScriptTables.Relays (fun call => (Machine.host call).lessThan a b) s
  | .call callee arguments =>
    ScriptTables.Relays (fun call => (Machine.host call).call callee arguments) s

theorem Request.relays (r : Request) (s : Machine) : r.Relays s := by
  cases r with
  | length v => exact relays_length v s
  | index object key => exact relays_indexFrom key s s.limits.maxMetaChain object
  | setIndex object key v => exact relays_setIndexFrom key v s s.limits.maxMetaChain object
  | lessThan a b => exact relays_lessThan a b s
  | call callee arguments => exact relays_callFirst callee arguments s

end

/-! ## the stages of a traced call -/

/-- from `m` on nothing was asked of the machine, or one length, which was answered -/
def Untouched (call : Caller) (m : Machine) (s : Traced Machine) : Prop :=
  s = ⟨m, []⟩ ∨ ∃ v answer, s.events = [.answered (.length v)] ∧
    (EvalM.length call v).run m = .ok answer s.state

def Request.surfaced : Request → Error → Error
  | .call _ _, e => e.wrap (.comparatorFailed e.fault.message)
  | _, e => e

/-- how a call of the library fails, and after which trace -/
inductive FailedAs (call : Caller) (comparator : Option Value) (m : Machine)
    (Refusal : Fault → Prop) : Error → Traced Machine → Prop
  | raised {r : Request} {e : Error} {s : Traced Machine} :
      Broke comparator r e s → FailedAs call comparator m Refusal (r.surfaced e) s
  | refused {fault : Fault} {s : Traced Machine} :
      Refusal fault → Untouched call m s → FailedAs call comparator m Refusal ⟨fault, []⟩ s
  /-- an element that was read has no text -/
  | unjoined {type : TypeName} {i : Int} {s : Traced Machine} :
      Calm comparator s → FailedAs call comparator m Refusal ⟨.cannotJoin type i, []⟩ s

def tracedStages (call : Caller) (comparator : Option Value) (m : Machine)
    (Refusal : Fault → Prop) : Stages (Traced Machine) where
  Operand _ := True
  Checked _ := True
  Refusal := Refusal
  Start s := s = ⟨m, []⟩
  Ready := Untouched call m
  Working := Calm comparator
  Failed := FailedAs call comparator m Refusal

section
variable {call : Caller} {comparator : Option Value} {m : Machine} {Refusal : Fault → Prop}

theorem Untouched.calm {s : Traced Machine} (h : Untouched call m s) : Calm comparator s := by
  rcases h with rfl | ⟨v, answer, hevents, _⟩
  · exact calm_nil m
  · intro event hevent
    rw [hevents, List.mem_singleton] at hevent
    rw [hevent]
    trivial

theorem ends_request {α : Type} {r : Request} (hr : r.Admitted comparator)
    (hsame : ∀ e, r.surfaced e = e) (x : EvalM α) :
    Ends (Calm comparator) (tracing r x) (fun _ => Calm comparator)
      (FailedAs call comparator m Refusal) :=
  (ends_tracing hr x).mono (fun _ => id) (fun _ _ => id) fun e _ h => hsame e ▸ .raised h

theorem ends_border (hother : Refusal .lengthNotInteger) (c : Collection) :
    Ends (· = ⟨m, []⟩) (c.border (Machine.host call).traced) (fun _ => Untouched call m)
      (FailedAs call comparator m Refusal) := by
  cases c with
  | native id => exact fun s hs => Or.inl hs
  | protocol object metatable =>
    have hlength : Ends (· = ⟨m, []⟩) (tracing (.length object) (EvalM.length call object))
        (fun _ => Untouched call m) (FailedAs call comparator m Refusal) := by
      intro s hs
      subst hs
      rw [tracing_run]
      cases hrun : (EvalM.length call object).run m with
      | ok answer t => exact Or.inr ⟨object, answer, rfl, hrun⟩
      | error e t =>
        have hbroke : Broke comparator (.length object) e ⟨t, [.raised (.length object) e t]⟩ :=
          ⟨trivial, [], rfl, fun _ hevent => absurd hevent List.not_mem_nil⟩
        exact FailedAs.raised hbroke
    apply Ends.bind hlength
    intro answer
    exact ends_lengthOf (fun _ hs => .refused hother hs) answer

theorem tracedStages_of (hother : ∀ fault, (∀ position function expected got,
      fault ≠ .wrongType position function expected got) → Refusal fault) :
    (tracedStages call comparator m Refusal).Of (Machine.host call).traced where
  ready _ hs := Or.inl hs
  working _ hs := hs.calm
  refuse _ _ hfault hs := .refused hfault hs
  other := hother
  check v position function required _ hrefusal := by
    have hcheck : Ends (· = ⟨m, []⟩)
        ((Machine.host call).traced.checkCollection v position function required)
        (fun c s => v = some c.value ∧ s = ⟨m, []⟩) (FailedAs call comparator m Refusal) :=
      ends_checkCollection (fun _ _ hs => hs) (fun _ _ _ hs => hs) v position function required
        fun _ hs => .refused hrefusal (Or.inl hs)
    exact hcheck.mono (fun _ hs => hs) (fun _ _ hs => ⟨trivial, hs.2⟩) fun _ _ he => he
  border c _ := ends_border (hother _ nofun) c
  fits _ _ hs := hs
  get c _ i :=
    ends_request (r := .index c.value (.integer (Int64.ofInt i))) trivial (fun _ => rfl) _

theorem tracedStages_writes :
    (tracedStages call comparator m Refusal).Writes (Machine.host call).traced :=
  fun c _ i v =>
    ends_request (r := .setIndex c.value (.integer (Int64.ofInt i)) v) trivial (fun _ => rfl) _

theorem tracedStages_asks :
    (tracedStages call comparator m Refusal).Asks (Machine.host call).traced comparator := by
  intro a b
  cases comparator with
  | none => exact ends_request (r := .lessThan a b) trivial (fun _ => rfl) _
  | some f =>
    have hcall : Ends (Calm (some f)) ((Machine.host call).traced.call f [a, b])
        (fun _ => Calm (some f)) (Broke (some f) (.call f [a, b])) :=
      ends_tracing (r := .call f [a, b]) ⟨rfl, rfl⟩ _
    apply Ends.bind (Ends.tryCatch hcall fun e => Ends.throw fun s hs => .raised hs)
    intro answer
    exact Ends.pure fun _ hs => hs

theorem tracedStages_makes :
    (tracedStages call comparator m Refusal).Makes (Machine.host call).traced := by
  intro t s hs
  subst hs
  exact calm_nil _

end

/-! ## calls -/

def ListCall.asked (c : ListCall) (list : Value) : Option Value :=
  (ScriptTables.comparator? (c.comparator list)).join

theorem ListCall.eq_of_asked {c : ListCall} {list callee : Value} (h : c.asked list = some callee) :
    c.function = .sort ∧ callee = c.comparator list := by
  have hvalue : callee = c.comparator list := by
    unfold asked at h
    cases hv : c.comparator list <;> rw [hv] at h <;> cases h
    rfl
  refine ⟨?_, hvalue⟩
  cases c with
  | sort operand comparator => rfl
  | positional f args =>
    cases f with
    | sort => rfl
    | _ => cases h
  | _ => cases h

/-- how calls end: where `remove` removes nothing, nothing was touched -/
theorem ends_listCall (call : Caller) (c : ListCall) (list : Value) (m : Machine) :
    Ends (· = ⟨m, []⟩) (c.run (Machine.host call).traced list)
      (fun vs s => Calm (c.asked list) s ∧ (c.function = .remove → vs = [] → Untouched call m s))
      (FailedAs call (c.asked list) m fun _ => True) := by
  have hstages : (tracedStages call (c.asked list) m fun _ => True).Of (Machine.host call).traced :=
    tracedStages_of fun _ _ => trivial
  refine hstages.listCall (fun _ => trivial) (fun _ _ => trivial) (fun _ _ => tracedStages_writes)
    (fun _ q hq => ?_) (fun _ _ _ _ hs => .unjoined hs) fun _ => tracedStages_makes
  have hasked : c.asked list = q := by rw [ListCall.asked, hq, Option.join_some]
  rw [hasked]
  exact tracedStages_asks

/-- **The first error that comes back from user code ends a call.**  No request follows the one that
failed, all before it were answered, the state is left as it was, and the call has that very error,
or, where a comparator failed, a runtime error that names it and has it as its cause, chain and all.
A request runs user code once at most and has the error of that. -/
theorem errors_surface (call : Caller) (c : ListCall) (list : Value) (m : Machine)
    {before after : List (Event Machine)} {r : Request} {e : Error} {u : Machine}
    (h : events (c.run (Machine.host call).traced list) m = before ++ .raised r e u :: after) :
    after = [] ∧ (∀ event ∈ before, ∃ q, event = .answered q) ∧ (∀ s, r.Relays s) ∧
    match r with
    | .call callee arguments =>
      c.function = .sort ∧ callee = c.comparator list ∧ arguments.length = 2 ∧
      ∃ e', (c.run (Machine.host call) list).run m = .error e' u ∧ e'.fault.kind = .runtime ∧
        e'.fault.message = "error in sort comparator: " ++ e.fault.message ∧
        e'.causes = e.fault :: e.causes
    | _ => (c.run (Machine.host call) list).run m = .error e u := by
  have hends := ends_listCall call c list m ⟨m, []⟩ rfl
  have hrun := run_eq_forget ((Machine.host call).traced_matching.listCall list c) m
  unfold events at h
  have hmem : .raised r e u ∈ before ++ .raised r e u :: after :=
    List.mem_append_right _ List.mem_cons_self
  cases htraced : (c.run (Machine.host call).traced list).run ⟨m, []⟩ with
  | ok vs s =>
    rw [htraced] at hends h
    exact (hends.1.not_raised (h ▸ hmem)).elim
  | error e' s =>
    rw [htraced] at hends h hrun
    cases hends with
    | refused _ huntouched =>
      have hcalm : Calm (c.asked list) s := huntouched.calm
      exact (hcalm.not_raised (h ▸ hmem)).elim
    | unjoined hcalm => exact (hcalm.not_raised (h ▸ hmem)).elim
    | raised hbroke =>
      obtain ⟨hafter, hbefore, rfl, rfl, rfl⟩ := hbroke.split h
      refine ⟨hafter, fun event hevent => ?_, r.relays, ?_⟩
      · cases event with
        | answered q => exact ⟨q, rfl⟩
        | raised q e' u => exact (hbefore _ hevent).elim
      · cases r with
        | call callee arguments =>
          obtain ⟨hasked, hlength⟩ := hbroke.1
          obtain ⟨hsort, hcallee⟩ := ListCall.eq_of_asked hasked
          exact ⟨hsort, hcallee, hlength, _, hrun, rfl, rfl, rfl⟩
        | _ => exact hrun

/-- A comparator without an order, and a pair of it and a list.  Sorted by the sort of the library
itself, the pair has its list sorted by that comparator. -/
def pairing : Machine where
  heap := {
    tables := ⟨#[{}, .ofList [.function ⟨1⟩, .table ⟨2⟩], .ofList [.integer 1, .integer 2]]⟩
    functions := ⟨#[⟨LibraryFunction.sort.qualifiedName, .library .sort⟩,
      ⟨"unordered", .script [.mk (.raise (.raised .type "no order") []) none]⟩]⟩ }
  globals := ⟨0⟩
  limits := {}

theorem errors_surface_pairing :
    events ((ListCall.sort .list (.function ⟨0⟩)).run (Machine.host EvalM.call).traced (.table ⟨1⟩))
      pairing = [.answered (.index (.table ⟨1⟩) (.integer 2)),
        .answered (.index (.table ⟨1⟩) (.integer 1))] ++
        [.raised (.call (.function ⟨0⟩) [.table ⟨2⟩, .function ⟨1⟩])
          ⟨.comparatorFailed "no order", [.raised .type "no order"]⟩ pairing] ∧
    ∃ e, ((ListCall.sort .list (.function ⟨0⟩)).run (Machine.host EvalM.call) (.table ⟨1⟩)).run
        pairing = .error e pairing ∧
      e.fault.message
        = "error in sort comparator: " ++ ("error in sort comparator: " ++ "no order") ∧
      e.causes = [.comparatorFailed "no order", .raised .type "no order"] := by
  have hevents : events ((ListCall.sort .list (.function ⟨0⟩)).run (Machine.host EvalM.call).traced
      (.table ⟨1⟩)) pairing = [.answered (.index (.table ⟨1⟩) (.integer 2)),
        .answered (.index (.table ⟨1⟩) (.integer 1))] ++
        [.raised (.call (.function ⟨0⟩) [.table ⟨2⟩, .function ⟨1⟩])
          ⟨.comparatorFailed "no order", [.raised .type "no order"]⟩ pairing] := rfl
  obtain ⟨_, _, _, _, _, _, e, hrun, _, hmessage, hcauses⟩ :=
    errors_surface EvalM.call (.sort .list (.function ⟨0⟩)) (.table ⟨1⟩) pairing hevents
  exact ⟨hevents, e, hrun, hmessage, hcauses⟩

end ScriptTables
