import ScriptTables.Proofs.Library.Checks
import ScriptTables.Proofs.Library.Tracing
import ScriptTables.Proofs.Machine.Writing
import ScriptTables.Proofs.Script.Forwarding
import ScriptTables.Proofs.Sort.Parallel

/-!
# A comparator that answers as the order does

A list is sorted by a function, and by the order of the host.  Where the function answers every
question as the order would answer it, with the same effects and the same errors, the two sorts are one:
step by step they make the same accesses and compare the same values, be the order consistent or not,
and so they leave the same state.  They fail together too.  The only difference is in the words: the
error of a function is reported as the error of a comparator.

The function has to echo the order in those states only to which a sort of this list may lead.

* `Host.SortStep`        what a sort may ask of its host;
* `Host.LedTo`           the states to which such steps lead;
* `Host.Echoes`          the function answers a question as the order does;
* `Event.echo`           an event of the one sort as an event of the other;
* `Echoing`              the states of the two sorts;
* `EchoesFailure`        how they fail together;
* `parallel_echoing`     reading, exchanging and comparing go alike;
* `sort_echoed`          the whole sort.
-/

namespace ScriptTables

section
variable {σ : Type}

/-! ## states and questions -/

/-- what a sort by the order of the host may ask -/
inductive Host.SortStep (host : Host σ) (list : Value) : {α : Type} → Action σ α → Prop
  | metatable? (v : Value) : SortStep host list (host.metatable? v)
  | field (id : TableId) (name : String) : SortStep host list (host.field id name)
  | border (id : TableId) : SortStep host list (host.border id)
  | length : SortStep host list (host.length list)
  | index (i : Int64) : SortStep host list (host.index list (.integer i))
  | setIndex (i : Int64) (v : Value) : SortStep host list (host.setIndex list (.integer i) v)
  | lessThan (a b : Value) : SortStep host list (host.lessThan a b)

/-- the states to which such steps lead, as long as they succeed -/
inductive Host.LedTo (host : Host σ) (list : Value) (s : σ) : σ → Prop
  | start : LedTo host list s s
  | step {α : Type} {x : Action σ α} {a : α} {t u : σ} : LedTo host list s t →
      host.SortStep list x → x.run t = .ok a u → LedTo host list s u

/-- In this state the function answers a question as the order does: it is true of its answer what the
order says, it fails with the same error, and it leaves the same state behind. -/
def Host.Echoes (host : Host σ) (f : FunctionId) (a b : Value) (s : σ) : Prop :=
  (do
    let answer ← host.call (.function f) [a, b]
    pure answer.isTruthy : Action σ Bool).run s = (host.lessThan a b).run s

/-! ## events -/

/-- the question about the order as the question to the function; all other requests are the same -/
def Request.echo (f : FunctionId) : Request → Request
  | .lessThan a b => .call (.function f) [a, b]
  | r => r

def Event.echo (f : FunctionId) : Event σ → Event σ
  | .answered r => .answered (r.echo f)
  | .raised r e s => .raised (r.echo f) e s

def Request.IsComparison : Request → Prop
  | .lessThan _ _ => True
  | _ => False

def Event.IsComparison : Event σ → Prop
  | .answered r => r.IsComparison
  | .raised r _ _ => r.IsComparison

def Unbroken (events : List (Event σ)) : Prop :=
  ∀ a b e s, .raised (.lessThan a b) e s ∉ events

theorem Request.echo_of_not {f : FunctionId} {r : Request} (hr : ¬r.IsComparison) :
    r.echo f = r := by
  cases r with
  | lessThan a b => exact absurd trivial hr
  | _ => rfl

theorem Event.echo_of_not {f : FunctionId} {event : Event σ} (h : ¬event.IsComparison) :
    event.echo f = event := by
  cases event with
  | answered r => exact congrArg Event.answered (Request.echo_of_not h)
  | raised r e s => exact congrArg (Event.raised · e s) (Request.echo_of_not h)

theorem Unbroken.append {events more : List (Event σ)} (h : Unbroken events)
    (hmore : Unbroken more) : Unbroken (events ++ more) :=
  fun a b e s hmem => (List.mem_append.mp hmem).elim (h a b e s) (hmore a b e s)

theorem unbroken_answered (r : Request) : Unbroken [(.answered r : Event σ)] :=
  fun _ _ _ _ hmem => nomatch List.mem_singleton.mp hmem

theorem unbroken_of_not {events : List (Event σ)} (h : ∀ event ∈ events, ¬event.IsComparison) :
    Unbroken events := fun _ _ _ _ hmem => h _ hmem trivial

/-! ## the two sorts -/

variable {host : Host σ} {list : Value} {f : FunctionId} {s : σ}

/-- The state of the sort by the function, and that of the sort by the order. -/
structure Echoing (host : Host σ) (list : Value) (f : FunctionId) (s : σ) (x y : Traced σ) :
    Prop where
  state : x.state = y.state
  events : x.events = y.events.map (Event.echo f)
  ledTo : host.LedTo list s y.state
  unbroken : Unbroken y.events

/-- The sorts fail with the same error, or at a comparison.  Then it is the error of a comparator for
one of them. -/
structure EchoesFailure (f : FunctionId) (e e' : Error) (x y : Traced σ) : Prop where
  state : x.state = y.state
  events : x.events = y.events.map (Event.echo f)
  error : e = e' ∧ Unbroken y.events ∨
    ∃ before a b, y.events = before ++ [.raised (.lessThan a b) e' y.state] ∧
      e = e'.wrap (.comparatorFailed e'.fault.message)

theorem alike_tracing {α : Type} {r : Request} (hr : ¬r.IsComparison) {x : Action σ α}
    (hx : host.SortStep list x) :
    Alike (Echoing host list f s) (EchoesFailure f) (· = ·) (tracing r x) (tracing r x) := by
  intro u t h
  have hevent : ∀ event : Event σ, event.echo f = event → u.events ++ [event]
      = (t.events ++ [event]).map (Event.echo f) := by
    intro event hecho
    rw [h.events, List.map_append, List.map_singleton, hecho]
  rw [tracing_run, tracing_run, h.state]
  cases hrun : x.run t.state with
  | ok a v =>
    exact ⟨rfl, rfl, hevent _ (Event.echo_of_not hr), h.ledTo.step hx hrun,
      h.unbroken.append (unbroken_answered r)⟩
  | error e v =>
    refine ⟨rfl, hevent _ (Event.echo_of_not hr), Or.inl ⟨rfl, h.unbroken.append ?_⟩⟩
    exact unbroken_of_not fun event hmem => List.mem_singleton.mp hmem ▸ hr

theorem alike_fail {α : Type} (fault : Fault) :
    Alike (Echoing host list f s) (EchoesFailure f) (fun (_ _ : α) => True)
      (fail fault : Action (Traced σ) α) (fail fault) :=
  fun _ _ h => ⟨h.state, h.events, Or.inl ⟨rfl, h.unbroken⟩⟩

theorem alike_precedes (hechoes : ∀ t, host.LedTo list s t → ∀ a b, host.Echoes f a b t)
    (a b : Value) :
    Alike (Echoing host list f s) (EchoesFailure f) (· = ·)
      (host.traced.precedes (some (.function f)) a b) (host.traced.precedes none a b) := by
  intro u t h
  have hecho := hechoes t.state h.ledTo a b
  have hasked : (host.traced.precedes none a b).run t
      = (tracing (.lessThan a b) (host.lessThan a b)).run t := rfl
  have hcalled : (host.traced.precedes (some (.function f)) a b).run u = (do
      let answer ← tryCatch (tracing (.call (.function f) [a, b]) (host.call (.function f) [a, b]))
        fun e => throw (e.wrap (.comparatorFailed e.fault.message))
      pure answer.isTruthy : Action (Traced σ) Bool).run u := rfl
  rw [Host.Echoes, run_bind] at hecho
  rw [hasked, hcalled, run_bind, run_tryCatch, tracing_run, tracing_run, h.state]
  cases hcall : (host.call (.function f) [a, b]).run t.state with
  | ok answer v =>
    rw [hcall] at hecho
    rw [← hecho]
    refine ⟨rfl, rfl, ?_, h.ledTo.step (.lessThan a b) hecho.symm,
      h.unbroken.append (unbroken_answered _)⟩
    show u.events ++ [_] = (t.events ++ [_]).map (Event.echo f)
    rw [h.events, List.map_append]
    rfl
  | error e v =>
    rw [hcall] at hecho
    rw [← hecho]
    refine ⟨rfl, ?_, Or.inr ⟨t.events, a, b, rfl, rfl⟩⟩
    show u.events ++ [_] = (t.events ++ [_]).map (Event.echo f)
    rw [h.events, List.map_append]
    rfl

/-! ## elements -/

section
variable {c : Collection}

theorem alike_get (hc : c.value = list) (i : Int) :
    Alike (Echoing host list f s) (EchoesFailure f) (· = ·) (c.get host.traced i)
      (c.get host.traced i) := by
  subst hc
  exact alike_tracing (r := .index c.value (.integer (Int64.ofInt i))) id (.index _)

theorem alike_set (hc : c.value = list) (i : Int) (v : Value) :
    Alike (Echoing host list f s) (EchoesFailure f) (· = ·) (c.set host.traced i v)
      (c.set host.traced i v) := by
  subst hc
  exact alike_tracing (r := .setIndex c.value (.integer (Int64.ofInt i)) v) id (.setIndex _ v)

theorem parallel_echoing (hechoes : ∀ t, host.LedTo list s t → ∀ a b, host.Echoes f a b t)
    (hc : c.value = list) (n : Nat) :
    Slots.Parallel (c.slots host.traced (some (.function f))) (c.slots host.traced none) n
      (Echoing host list f s) (EchoesFailure f) (· = ·) where
  get i _ _ := alike_get hc i
  swap i j _ _ _ _ := by
    refine Alike.bind_eq (alike_get hc i) fun a => ?_
    refine Alike.bind_eq (alike_get hc j) fun b => ?_
    refine Alike.bind_eq (alike_set hc i b) fun _ => ?_
    exact (alike_set hc j a).mono fun _ _ _ => trivial
  less := by
    rintro a _ b _ rfl rfl
    exact alike_precedes hechoes a b

theorem alike_sortElements (hechoes : ∀ t, host.LedTo list s t → ∀ a b, host.Echoes f a b t)
    (hc : c.value = list) (border : Int64) :
    Alike (Echoing host list f s) (EchoesFailure f) (fun _ _ => True)
      (c.sortElements host.traced border (some (.function f)))
      (c.sortElements host.traced border none) := by
  unfold Collection.sortElements
  by_cases hshort : border.toInt ≤ 1
  · rw [if_pos hshort, if_pos hshort]
    exact Alike.pure trivial
  · rw [if_neg hshort, if_neg hshort]
    by_cases hlong : Collection.sortableBorder ≤ border.toInt
    · rw [if_pos hlong, if_pos hlong]
      exact alike_fail _
    · rw [if_neg hlong, if_neg hlong]
      exact (parallel_echoing hechoes hc _).sortRange _ _ _ (Nat.le_refl 1) (Nat.le_refl _)

end

/-! ## the entry -/

def Uncompared (x : Traced σ) : Prop := ∀ event ∈ x.events, ¬event.IsComparison

theorem Uncompared.append {x : Traced σ} (h : Uncompared x) (event : Event σ)
    (hevent : ¬event.IsComparison) (t : σ) : Uncompared ⟨t, x.events ++ [event]⟩ := by
  intro event' hmem
  rcases List.mem_append.mp hmem with hmem | hmem
  · exact h event' hmem
  · exact List.mem_singleton.mp hmem ▸ hevent

theorem Uncompared.echo {x : Traced σ} (h : Uncompared x) :
    x.events = x.events.map (Event.echo f) := by
  refine (List.map_id' x.events).symm.trans (List.map_congr_left fun event hmem => ?_)
  exact (Event.echo_of_not (h event hmem)).symm

/-- before the elements are sorted nothing is compared -/
def Entering (host : Host σ) (list : Value) (s : σ) (x : Traced σ) : Prop :=
  host.LedTo list s x.state ∧ Uncompared x

theorem Entering.echoing {x : Traced σ} (h : Entering host list s x) :
    Echoing host list f s x x := ⟨rfl, h.2.echo, h.1, unbroken_of_not h.2⟩

theorem ends_untraced {α : Type} {x : Action σ α} (hx : host.SortStep list x) :
    Ends (Entering host list s) (untraced x) (fun _ => Entering host list s)
      fun _ => Uncompared := by
  intro u h
  rw [untraced_run]
  cases hrun : x.run u.state with
  | ok a v => exact ⟨h.1.step hx hrun, h.2⟩
  | error e v => exact h.2

theorem ends_tracing_access {α : Type} {r : Request} (hr : ¬r.IsComparison) {x : Action σ α}
    (hx : host.SortStep list x) :
    Ends (Entering host list s) (tracing r x) (fun _ => Entering host list s)
      fun _ => Uncompared := by
  intro u h
  rw [tracing_run]
  cases hrun : x.run u.state with
  | ok a v => exact ⟨h.1.step hx hrun, h.2.append (.answered r) hr v⟩
  | error e v => exact h.2.append (.raised r e v) hr v

theorem ends_sortEntry :
    Ends (Entering host list s)
      (host.traced.collectionWithBorder (some list) 1 "sort" .readingWriting)
      (fun p x => p.1.value = list ∧ Entering host list s x) fun _ => Uncompared := by
  have hcheck : Ends (Entering host list s)
      (host.traced.checkCollection (some list) 1 "sort" (Capabilities.readingWriting.union .measuring))
      (fun c x => some list = some c.value ∧ Entering host list s x) fun _ => Uncompared :=
    ends_checkCollection (fun v => ends_untraced (.metatable? v))
      (fun id name => ends_untraced (.field id name)) (some list) 1 "sort" _ fun _ h => h.2
  refine Ends.bind hcheck fun c => Ends.of_and fun hc => ?_
  have hborder : Ends (Entering host list s) (c.border host.traced)
      (fun _ => Entering host list s) fun _ => Uncompared := by
    cases c with
    | native id => exact ends_untraced (.border id)
    | protocol object metatable =>
      obtain rfl : list = object := Option.some.inj hc
      exact Ends.bind (ends_tracing_access (r := .length list) id .length)
        fun answer => ends_lengthOf (E := fun _ => Uncompared) (fun _ h => h.2) answer
  refine Ends.bind hborder fun border => Ends.pure fun x hx => ?_
  exact ⟨(Option.some.inj hc).symm, hx⟩

/-! ## the whole sort -/

theorem traced_sorts (hechoes : ∀ t, host.LedTo list s t → ∀ a b, host.Echoes f a b t) :
    (∃ x y, (host.traced.sort list (.function f)).run ⟨s, []⟩ = .ok () x ∧
      (host.traced.sort list .nil).run ⟨s, []⟩ = .ok () y ∧ Echoing host list f s x y) ∨
    ∃ e e' x y, (host.traced.sort list (.function f)).run ⟨s, []⟩ = .error e x ∧
      (host.traced.sort list .nil).run ⟨s, []⟩ = .error e' y ∧ EchoesFailure f e e' x y := by
  have hstart : Entering host list s ⟨s, []⟩ := ⟨.start, fun _ hmem => nomatch hmem⟩
  have hentry := ends_sortEntry ⟨s, []⟩ hstart
  unfold Host.sort
  rw [run_bind, run_bind]
  cases hrun : (host.traced.collectionWithBorder (some list) 1 "sort" .readingWriting).run ⟨s, []⟩
    with
  | error e u =>
    rw [hrun] at hentry
    exact Or.inr ⟨e, e, u, u, rfl, rfl, rfl, hentry.echo, Or.inl ⟨rfl, unbroken_of_not hentry⟩⟩
  | ok p u =>
    rw [hrun] at hentry
    obtain ⟨hc, hentered⟩ := hentry
    have helements := alike_sortElements hechoes hc p.2 u u hentered.echoing
    dsimp only
    cases hx : (p.1.sortElements host.traced p.2 (some (.function f))).run u <;>
      cases hy : (p.1.sortElements host.traced p.2 none).run u <;> rw [hx, hy] at helements
    case ok.ok => exact Or.inl ⟨_, _, rfl, rfl, helements.2⟩
    case error.error => exact Or.inr ⟨_, _, _, _, rfl, rfl, helements⟩
    case ok.error => exact helements.elim
    case error.ok => exact helements.elim

/-- How a sort by the function ends and how a sort by the order does, by the trace of the latter.  The
state that they leave behind is the same. -/
inductive EchoedOutcome (trace : List (Event σ)) :
    EStateM.Result Error σ Unit → EStateM.Result Error σ Unit → Prop
  | sorted (u : σ) : Unbroken trace → EchoedOutcome trace (.ok () u) (.ok () u)
  /-- an argument was refused, or an access failed -/
  | failed (e : Error) (u : σ) : Unbroken trace → EchoedOutcome trace (.error e u) (.error e u)
  /-- the last comparison failed -/
  | compared {before : List (Event σ)} {a b : Value} {e : Error} {u : σ} :
      trace = before ++ [.raised (.lessThan a b) e u] →
      EchoedOutcome trace (.error (e.wrap (.comparatorFailed e.fault.message)) u) (.error e u)

/-- **Sorting by a function that answers as the order does is sorting by the order.**  The two sorts
make the same accesses in the same order, and where the one compares two values the other calls the
function with them.  They leave the same state behind, and either both succeed or both fail at the
same request.  Where that is a comparison the error of the function is reported as that of a
comparator, with the error as its cause; any other error is the same. -/
theorem sort_echoed {host : Host σ} {list : Value} {f : FunctionId} {s : σ}
    (hechoes : ∀ t, host.LedTo list s t → ∀ a b, host.Echoes f a b t) :
    events (host.traced.sort list (.function f)) s
      = (events (host.traced.sort list .nil) s).map (Event.echo f) ∧
    EchoedOutcome (events (host.traced.sort list .nil) s) ((host.sort list (.function f)).run s)
      ((host.sort list .nil).run s) ∧
    ∀ e : Error, (e.wrap (.comparatorFailed e.fault.message)).fault.kind = .runtime ∧
      (e.wrap (.comparatorFailed e.fault.message)).fault.message
        = "error in sort comparator: " ++ e.fault.message ∧
      (e.wrap (.comparatorFailed e.fault.message)).causes = e.fault :: e.causes := by
  have hfunction := run_eq_forget (host.traced_matching.sort list (.function f)) s
  have horder := run_eq_forget (host.traced_matching.sort list .nil) s
  rw [hfunction, horder, events, events]
  refine ⟨?_, ?_, fun e => ⟨rfl, rfl, rfl⟩⟩
  · rcases traced_sorts hechoes with ⟨x, y, hx, hy, h⟩ | ⟨e, e', x, y, hx, hy, h⟩
    · rw [hx, hy]
      exact h.events
    · rw [hx, hy]
      exact h.events
  · rcases traced_sorts hechoes with ⟨x, y, hx, hy, h⟩ | ⟨e, e', x, y, hx, hy, h⟩
    · rw [hx, hy, Traced.forget, Traced.forget, h.state]
      exact .sorted _ h.unbroken
    · rw [hx, hy, Traced.forget, Traced.forget, h.state]
      rcases h.error with ⟨rfl, hunbroken⟩ | ⟨before, a, b, hlast, rfl⟩
      · exact .failed _ _ hunbroken
      · exact .compared hlast

end

/-! ## a script that compares its arguments -/

/-- no value has a metatable, and there is room for a call of the function that compares -/
structure Unhooked (f : FunctionId) (m : Machine) : Prop where
  metatable : ∀ v, m.heap.metatable? v = none
  code : (m.heap.function f).code = .script comparingBody
  level : m.depth < m.limits.maxCallDepth

namespace Unhooked

variable {f : FunctionId} {m m' : Machine} {list : Value}

theorem metamethod (h : Unhooked f m) (v : Value) (event : String) :
    m.heap.metamethod v event = .nil := Heap.metamethod_of_none (h.metatable v) event

theorem lessHandler (h : Unhooked f m) (a b : Value) : m.heap.lessHandler a b = .nil := by
  rw [Heap.lessHandler, h.metamethod, h.metamethod]
  rfl

theorem echoes (h : Unhooked f m) (a b : Value) :
    (Machine.host EvalM.call).Echoes f a b m := by
  have hcompares : ∀ m' : Machine, m'.heap = m.heap → (EvalM.lessThan EvalM.call a b).run m'
      = (a.less? b).elim (.error ⟨.cannotCompare a.typeName b.typeName, []⟩ m') (.ok · m') := by
    intro m' hheap
    refine EvalM.lessThan_of_nil ?_
    rw [hheap]
    exact h.lessHandler a b
  have hbody : ∀ m' : Machine, m'.heap = m.heap →
      (runBody EvalM.call comparingBody [a, b]).run m' = (a.less? b).elim
        (.error ⟨.cannotCompare a.typeName b.typeName, []⟩ m') (.ok [.boolean ·] m') := by
    intro m' hheap
    rw [comparing_run, inFrame_run, run_bind,
      hcompares { m' with session := { m'.session with frame := some ⟨[a, b], []⟩ } } hheap]
    cases a.less? b <;> rfl
  show (EvalM.callFirst EvalM.call (.function f) [a, b] >>= fun answer => pure answer.isTruthy
    : EvalM Bool).run m = (EvalM.lessThan EvalM.call a b).run m
  rw [EvalM.callFirst, run_bind, run_bind, call_script_run h.code h.level, nested_run,
    hbody { m with depth := m.depth + 1 } rfl, hcompares m rfl]
  cases a.less? b <;> rfl

theorem step (h : Unhooked f m) {α : Type} {x : EvalM α} {a : α}
    (hx : (Machine.host EvalM.call).SortStep list x) (hrun : x.run m = .ok a m') :
    Unhooked f m' := by
  cases hx with
  | metatable? v =>
    cases hrun
    exact h
  | field id name =>
    cases hrun
    exact h
  | border id =>
    cases hrun
    exact h
  | length =>
    have hlength : (EvalM.length EvalM.call list).run m = .ok a m' := hrun
    rw [EvalM.length_of_nil (h.metamethod list lengthHook)] at hlength
    cases hraw : m.heap.rawLength? list <;> rw [hraw] at hlength <;> cases hlength
    exact h
  | index i =>
    have hindex : (EvalM.index EvalM.call list (.integer i)).run m = .ok a m' := hrun
    have hsame : finalState ((EvalM.index EvalM.call list (.integer i)).run m) = m := by
      refine finalState_index (m := m) fun link g hcalls => ?_
      obtain ⟨n, -, -, -, hg⟩ := hcalls
      rw [h.metamethod] at hg
      cases hg
    rw [hindex] at hsame
    obtain rfl : m' = m := hsame
    exact h
  | setIndex i v =>
    generalize hr : EStateM.Result.ok a m' = r at hrun
    cases setIndex_run_iff.mp hrun with
    | @written n id k _ _ _ _ =>
      obtain rfl : m' = m.write id k v := by
        injection hr
      exact ⟨fun object => (m.heap.metatable?_write id k v object).trans (h.metatable object),
        h.code, h.level⟩
    | called _ _ _ hg =>
      rw [h.metamethod] at hg
      cases hg
    | unkeyed => cases hr
    | refused => cases hr
    | tooLong => cases hr
  | lessThan v w =>
    have hless : (EvalM.lessThan EvalM.call v w).run m = .ok a m' := hrun
    rw [EvalM.lessThan_of_nil (h.lessHandler v w)] at hless
    cases horder : v.less? w <;> rw [horder] at hless <;> cases hless
    exact h

theorem ledTo (h : Unhooked f m) (hled : (Machine.host EvalM.call).LedTo list m m') :
    Unhooked f m' := by
  induction hled with
  | start => exact h
  | step _ hx hrun ih => exact ih.step hx hrun

end Unhooked

/-- a list of a number and a text, and a function that compares -/
def mixed : Machine where
  heap := {
    tables := ⟨#[{}, .ofList [.integer 2, .string "one"]]⟩
    functions := ⟨#[⟨"less", .script comparingBody⟩]⟩ }
  globals := ⟨0⟩
  limits := {}

theorem unhooked_mixed : Unhooked ⟨0⟩ mixed where
  metatable v := by
    match v with
    | .table ⟨0⟩ | .table ⟨1⟩ | .table ⟨_ + 2⟩ => rfl
    | .userdata _ => rfl
    | .nil | .boolean _ | .integer _ | .number _ | .string _ | .function _ => rfl
  code := rfl
  level := by decide

/-- the two sorts fail when they compare the text with the number -/
theorem sort_echoed_mixed :
    (∀ t, (Machine.host EvalM.call).LedTo (.table ⟨1⟩) mixed t → ∀ a b,
      (Machine.host EvalM.call).Echoes ⟨0⟩ a b t) ∧
    ((Machine.host EvalM.call).sort (.table ⟨1⟩) .nil).run mixed
      = .error ⟨.cannotCompare .string .number, []⟩ mixed ∧
    ((Machine.host EvalM.call).sort (.table ⟨1⟩) (.function ⟨0⟩)).run mixed
      = .error ⟨.comparatorFailed "attempt to compare string with number",
          [.cannotCompare .string .number]⟩ mixed ∧
    events ((Machine.host EvalM.call).traced.sort (.table ⟨1⟩) (.function ⟨0⟩)) mixed
      = [.answered (.index (.table ⟨1⟩) (.integer 2)), .answered (.index (.table ⟨1⟩) (.integer 1)),
        .raised (.call (.function ⟨0⟩) [.string "one", .integer 2])
          ⟨.cannotCompare .string .number, []⟩ mixed] := by
  have hechoes : ∀ t, (Machine.host EvalM.call).LedTo (.table ⟨1⟩) mixed t → ∀ a b,
      (Machine.host EvalM.call).Echoes ⟨0⟩ a b t :=
    fun t hled a b => (unhooked_mixed.ledTo hled).echoes a b
  have horder : ((Machine.host EvalM.call).sort (.table ⟨1⟩) .nil).run mixed
      = .error ⟨.cannotCompare .string .number, []⟩ mixed := rfl
  have htrace : events ((Machine.host EvalM.call).traced.sort (.table ⟨1⟩) .nil) mixed
      = [.answered (.index (.table ⟨1⟩) (.integer 2)), .answered (.index (.table ⟨1⟩) (.integer 1))]
        ++ [.raised (.lessThan (.string "one") (.integer 2)) ⟨.cannotCompare .string .number, []⟩
          mixed] := rfl
  obtain ⟨hevents, houtcome, -⟩ := sort_echoed hechoes
  refine ⟨hechoes, horder, ?_, hevents.trans (congrArg _ htrace)⟩
  rw [horder] at houtcome
  generalize ((Machine.host EvalM.call).sort (.table ⟨1⟩) (.function ⟨0⟩)).run mixed = r
    at houtcome ⊢
  cases houtcome with
  | failed _ _ hunbroken =>
    rw [htrace] at hunbroken
    exact absurd (List.mem_append_right _ List.mem_cons_self) (hunbroken _ _ _ _)
  | compared _ => rfl

end ScriptTables
