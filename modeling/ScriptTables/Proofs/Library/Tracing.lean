import ScriptTables.Proofs.Library.Recording

/-!
# Traced hosts

A trace tells more than a record of requests: of each request whether it was answered, and if it
failed, with which error and in which state.  So it can be said that an error is the first one and
that nothing runs after it.

* `Event`               an answered request, or one that failed;
* `Host.traced`         a host that keeps a trace of its requests;
* `events`              the trace of an action from a state;
* `run_eq_forget`, `traced_run_of_ok`, `traced_run_of_error`   the run beside the trace;
* `Host.traced_matching`   a traced host does what it does without a trace;
* `Calm`, `Broke`       so far every request was answered; the last one was not;
* `ends_tracing`        what a request adds to a trace.
-/

namespace ScriptTables

inductive Event (σ : Type) where
  | answered (r : Request)
  /-- a request that failed, and the state it left behind -/
  | raised (r : Request) (e : Error) (s : σ)

/-- a state with the events so far -/
structure Traced (σ : Type) where
  state : σ
  events : List (Event σ) := []

section
variable {σ α : Type}

def untraced (x : Action σ α) : Action (Traced σ) α := fun s =>
  match x.run s.state with
  | .ok a t => .ok a { s with state := t }
  | .error e t => .error e { s with state := t }

/-- run a request and note how it ends -/
def tracing (r : Request) (x : Action σ α) : Action (Traced σ) α := fun s =>
  match x.run s.state with
  | .ok a t => .ok a ⟨t, s.events ++ [.answered r]⟩
  | .error e t => .error e ⟨t, s.events ++ [.raised r e t]⟩

def Host.traced (host : Host σ) : Host (Traced σ) where
  metatable? v := untraced (host.metatable? v)
  field id name := untraced (host.field id name)
  border id := untraced (host.border id)
  length v := tracing (.length v) (host.length v)
  index object key := tracing (.index object key) (host.index object key)
  setIndex object key v := tracing (.setIndex object key v) (host.setIndex object key v)
  lessThan a b := tracing (.lessThan a b) (host.lessThan a b)
  call callee arguments := tracing (.call callee arguments) (host.call callee arguments)
  newTable t := untraced (host.newTable t)
  fits n := untraced (host.fits n)

def events (x : Action (Traced σ) α) (s : σ) : List (Event σ) :=
  (finalState (x.run ⟨s, []⟩)).events

/-! ## the trace beside the run -/

theorem untraced_run (x : Action σ α) (s : Traced σ) :
    (untraced x).run s = match x.run s.state with
      | .ok a t => .ok a { s with state := t }
      | .error e t => .error e { s with state := t } := rfl

theorem tracing_run (r : Request) (x : Action σ α) (s : Traced σ) :
    (tracing r x).run s = match x.run s.state with
      | .ok a t => .ok a ⟨t, s.events ++ [.answered r]⟩
      | .error e t => .error e ⟨t, s.events ++ [.raised r e t]⟩ := rfl

def Traced.Of (s : Traced σ) (t : σ) : Prop := s.state = t

theorem inStep_untraced (x : Action σ α) : InStep Traced.Of (· = ·) (untraced x) x := by
  intro s t hst
  obtain rfl : s.state = t := hst
  rw [untraced_run]
  cases x.run s.state with
  | ok a t => exact ⟨rfl, rfl⟩
  | error e t => exact ⟨rfl, rfl⟩

theorem inStep_tracing (r : Request) (x : Action σ α) :
    InStep Traced.Of (· = ·) (tracing r x) x := by
  intro s t hst
  obtain rfl : s.state = t := hst
  rw [tracing_run]
  cases x.run s.state with
  | ok a t => exact ⟨rfl, rfl⟩
  | error e t => exact ⟨rfl, rfl⟩

def Traced.forget : EStateM.Result Error (Traced σ) α → EStateM.Result Error σ α
  | .ok a s => .ok a s.state
  | .error e s => .error e s.state

theorem run_eq_forget {x : Action (Traced σ) α} {y : Action σ α}
    (h : InStep Traced.Of (· = ·) x y) (s : σ) : y.run s = Traced.forget (x.run ⟨s, []⟩) := by
  rcases h.run (show Traced.Of ⟨s, []⟩ s from rfl) with
    ⟨a, s', b, t', hx, hy, rfl, hst⟩ | ⟨e, s', t', hx, hy, hst⟩
  · rw [hx, hy]
    exact congrArg _ hst.symm
  · rw [hx, hy]
    exact congrArg _ hst.symm

theorem traced_run_of_ok {x : Action (Traced σ) α} {y : Action σ α} {s u : σ} {a : α}
    (h : InStep Traced.Of (· = ·) x y) (hrun : y.run s = .ok a u) :
    x.run ⟨s, []⟩ = .ok a ⟨u, events x s⟩ := by
  rw [run_eq_forget h] at hrun
  unfold events
  cases htraced : x.run ⟨s, []⟩ <;> rw [htraced] at hrun <;> cases hrun
  rfl

theorem traced_run_of_error {x : Action (Traced σ) α} {y : Action σ α} {s u : σ} {e : Error}
    (h : InStep Traced.Of (· = ·) x y) (hrun : y.run s = .error e u) :
    x.run ⟨s, []⟩ = .error e ⟨u, events x s⟩ := by
  rw [run_eq_forget h] at hrun
  unfold events
  cases htraced : x.run ⟨s, []⟩ <;> rw [htraced] at hrun <;> cases hrun
  rfl

theorem Host.traced_matching (host : Host σ) : host.traced.Matching host Traced.Of where
  metatable? _ := inStep_untraced _
  field _ _ := inStep_untraced _
  border _ := inStep_untraced _
  length _ := inStep_tracing _ _
  index _ _ := inStep_tracing _ _
  setIndex _ _ _ := inStep_tracing _ _
  lessThan _ _ := inStep_tracing _ _
  call _ _ := inStep_tracing _ _
  newTable _ _ := inStep_untraced _
  fits _ := inStep_untraced _

/-! ## what is traced -/

/-- the requests of a call that sorts by this comparator, if it sorts by one -/
def Request.Admitted (comparator : Option Value) : Request → Prop
  | .call callee arguments => comparator = some callee ∧ arguments.length = 2
  | _ => True

def Event.Answered (comparator : Option Value) : Event σ → Prop
  | .answered r => r.Admitted comparator
  | .raised _ _ _ => False

/-- every request so far was answered -/
def Calm (comparator : Option Value) (s : Traced σ) : Prop :=
  ∀ event ∈ s.events, event.Answered comparator

/-- every request was answered but the last one, and nothing happened after that -/
def Broke (comparator : Option Value) (r : Request) (e : Error) (s : Traced σ) : Prop :=
  r.Admitted comparator ∧ ∃ before, s.events = before ++ [.raised r e s.state] ∧
    ∀ event ∈ before, event.Answered comparator

section
variable {comparator : Option Value} {r : Request}

theorem calm_nil (s : σ) : Calm comparator (⟨s, []⟩ : Traced σ) :=
  fun _ hevent => absurd hevent List.not_mem_nil

theorem ends_tracing (hr : r.Admitted comparator) (x : Action σ α) :
    Ends (Calm comparator) (tracing r x) (fun _ => Calm comparator) (Broke comparator r) := by
  intro s hs
  rw [tracing_run]
  cases x.run s.state with
  | ok a t =>
    intro event hevent
    rcases List.mem_append.mp hevent with hevent | hevent
    · exact hs event hevent
    · rw [List.mem_singleton.mp hevent]
      exact hr
  | error e t => exact ⟨hr, s.events, rfl, hs⟩

theorem Calm.not_raised {r : Request} {e : Error} {s : Traced σ} {u : σ} (h : Calm comparator s)
    (hmem : .raised r e u ∈ s.events) : False := h _ hmem

theorem Broke.split {e e' : Error} {r' : Request} {s : Traced σ} {u : σ}
    {before after : List (Event σ)} (h : Broke comparator r e s)
    (hevents : s.events = before ++ .raised r' e' u :: after) :
    after = [] ∧ (∀ event ∈ before, event.Answered comparator) ∧ r' = r ∧ e' = e ∧
      u = s.state := by
  obtain ⟨_, answered, hbroke, hanswered⟩ := h
  rw [hbroke] at hevents
  rcases List.append_eq_append_iff.mp hevents with ⟨rest, rfl, hrest⟩ | ⟨rest, rfl, hrest⟩
  · cases rest with
    | nil =>
      cases hrest
      exact ⟨rfl, fun event hevent => hanswered event (by simpa using hevent), rfl, rfl, rfl⟩
    | cons event rest => simp at hrest
  · cases rest with
    | nil =>
      cases hrest
      exact ⟨rfl, fun event hevent => hanswered event (by simpa using hevent), rfl, rfl, rfl⟩
    | cons event rest =>
      obtain rfl := (List.cons.inj hrest).1
      exact (hanswered _ (List.mem_append_right _ List.mem_cons_self)).elim

end

end

end ScriptTables
