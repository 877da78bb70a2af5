import ScriptTables.Proofs.Budget
import ScriptTables.Proofs.Library.Checks
import ScriptTables.Proofs.Library.Matching
import ScriptTables.Proofs.Sort.Budget

/-!
# Recorded hosts

A host can be made to keep a record of what is asked of it.  Looking up metatables and raw fields is
left out: it runs no code and looks at no element.  The record changes nothing about what the host does.

* `Request`               what is recorded: lengths, accesses to elements, comparisons and calls;
* `Host.recorded`         a host that records its requests behind those so far;
* `requests`              all requests that an action makes from a state;
* `Host.recorded_matching`   a recorded host does what it does without a record;
* `exists_requests`       the requests of an action, from what each of them is and how many there are;
* `requests_entry`        an operation first asks for a length, if for anything;
* `requests_bind`         what it asks for from then on.
-/

namespace ScriptTables

inductive Request where
  | length (object : Value)
  | index (object key : Value)
  | setIndex (object key v : Value)
  | lessThan (a b : Value)
  | call (callee : Value) (arguments : List Value)
  deriving DecidableEq, Repr

/-- a state with the requests made so far -/
structure Recorded (σ : Type) where
  state : σ
  requests : List Request := []

section
variable {σ α : Type}

/-- run something without a request -/
def unrecorded (x : Action σ α) : Action (Recorded σ) α := fun s =>
  match x.run s.state with
  | .ok a t => .ok a { s with state := t }
  | .error e t => .error e { s with state := t }

/-- record a request, then run it -/
def recording (r : Request) (x : Action σ α) : Action (Recorded σ) α := do
  update fun s => { s with requests := s.requests ++ [r] }
  unrecorded x

def Host.recorded (host : Host σ) : Host (Recorded σ) where
  metatable? v := unrecorded (host.metatable? v)
  field id name := unrecorded (host.field id name)
  border id := unrecorded (host.border id)
  length v := recording (.length v) (host.length v)
  index object key := recording (.index object key) (host.index object key)
  setIndex object key v := recording (.setIndex object key v) (host.setIndex object key v)
  lessThan a b := recording (.lessThan a b) (host.lessThan a b)
  call callee arguments := recording (.call callee arguments) (host.call callee arguments)
  newTable t := unrecorded (host.newTable t)
  fits n := unrecorded (host.fits n)

/-- the requests that an action makes from a state -/
def requests (x : Action (Recorded σ) α) (s : σ) : List Request :=
  (finalState (x.run ⟨s, []⟩)).requests

/-! ## the record beside the run -/

theorem unrecorded_run (x : Action σ α) (s : Recorded σ) :
    (unrecorded x).run s = match x.run s.state with
      | .ok a t => .ok a { s with state := t }
      | .error e t => .error e { s with state := t } := rfl

theorem recording_run (r : Request) (x : Action σ α) (s : Recorded σ) :
    (recording r x).run s = match x.run s.state with
      | .ok a t => .ok a ⟨t, s.requests ++ [r]⟩
      | .error e t => .error e ⟨t, s.requests ++ [r]⟩ := rfl

def Recorded.Of (s : Recorded σ) (t : σ) : Prop := s.state = t

theorem inStep_unrecorded (x : Action σ α) : InStep Recorded.Of (· = ·) (unrecorded x) x := by
  intro s t hst
  obtain rfl : s.state = t := hst
  rw [unrecorded_run]
  cases x.run s.state with
  | ok a t => exact ⟨rfl, rfl⟩
  | error e t => exact ⟨rfl, rfl⟩

theorem inStep_recording (r : Request) (x : Action σ α) :
    InStep Recorded.Of (· = ·) (recording r x) x :=
  fun s t hst => inStep_unrecorded x { s with requests := s.requests ++ [r] } t hst

theorem Host.recorded_matching (host : Host σ) : host.recorded.Matching host Recorded.Of where
  metatable? _ := inStep_unrecorded _
  field _ _ := inStep_unrecorded _
  border _ := inStep_unrecorded _
  length _ := inStep_recording _ _
  index _ _ := inStep_recording _ _
  setIndex _ _ _ := inStep_recording _ _
  lessThan _ _ := inStep_recording _ _
  call _ _ := inStep_recording _ _
  newTable _ _ := inStep_unrecorded _
  fits _ := inStep_unrecorded _

/-! ## what is recorded -/

/-- behind the requests of the entry there are none but those with `A` -/
def Since (entry : List Request) (A : Request → Prop) (s : Recorded σ) : Prop :=
  ∃ rest, s.requests = entry ++ rest ∧ ∀ r ∈ rest, A r

def Recorded.count (s : Recorded σ) : Nat := s.requests.length

section
variable {entry : List Request} {A : Request → Prop}

theorem requests_unrecorded (x : Action σ α) (s : Recorded σ) :
    (finalState ((unrecorded x).run s)).requests = s.requests := by
  rw [unrecorded_run]
  cases x.run s.state <;> rfl

theorem requests_recording (r : Request) (x : Action σ α) (s : Recorded σ) :
    (finalState ((recording r x).run s)).requests = s.requests ++ [r] :=
  requests_unrecorded x { s with requests := s.requests ++ [r] }

theorem keeps_unrecorded (x : Action σ α) : Keeps (Since entry A) (unrecorded x) := by
  refine keeps_iff.mpr fun s hs => ?_
  obtain ⟨rest, hrest, hall⟩ := hs
  exact ⟨rest, (requests_unrecorded x s).trans hrest, hall⟩

theorem keeps_recording {r : Request} (hr : A r) (x : Action σ α) :
    Keeps (Since entry A) (recording r x) := by
  refine keeps_iff.mpr fun s hs => ?_
  obtain ⟨rest, hrest, hall⟩ := hs
  refine ⟨rest ++ [r], ?_, fun q hq => ?_⟩
  · rw [requests_recording, hrest, List.append_assoc]
  · rcases List.mem_append.mp hq with hq | hq
    · exact hall q hq
    · rw [List.mem_singleton.mp hq]
      exact hr

theorem takes_recording (r : Request) (x : Action σ α) :
    Takes Recorded.count 1 (recording r x) := by
  refine takes_iff.mpr fun s => ?_
  rw [Recorded.count, requests_recording, List.length_append]
  exact Nat.le_refl _

theorem exists_no_requests (n : Nat) (rs : List Request) :
    ∃ rest, rs = rs ++ rest ∧ rest.length ≤ n ∧ ∀ r ∈ rest, A r :=
  ⟨[], (List.append_nil rs).symm, Nat.zero_le n, fun _ hr => absurd hr List.not_mem_nil⟩

theorem exists_requests {x : Action (Recorded σ) α} {n : Nat}
    (hkeeps : ∀ entry, Keeps (Since entry A) x) (htakes : Takes Recorded.count n x)
    (s : Recorded σ) :
    ∃ rest, (finalState (x.run s)).requests = s.requests ++ rest ∧ rest.length ≤ n ∧
      ∀ r ∈ rest, A r := by
  have hs : Since s.requests A s :=
    ⟨[], (List.append_nil _).symm, fun _ hr => absurd hr List.not_mem_nil⟩
  obtain ⟨rest, hrest, hall⟩ := keeps_iff.mp (hkeeps s.requests) s hs
  refine ⟨rest, hrest, ?_, hall⟩
  have hcount := takes_iff.mp htakes s
  rw [Recorded.count, Recorded.count, hrest, List.length_append] at hcount
  omega

end

/-! ## collections -/

theorem Collection.takes_get (host : Host σ) (c : Collection) (i : Int) :
    Takes Recorded.count 1 (c.get host.recorded i) := takes_recording _ _

theorem Collection.takes_set (host : Host σ) (c : Collection) (i : Int) (v : Value) :
    Takes Recorded.count 1 (c.set host.recorded i v) := takes_recording _ _

theorem Host.takes_precedes (host : Host σ) (comparator : Option Value) (a b : Value) :
    Takes Recorded.count 1 (host.recorded.precedes comparator a b) := by
  cases comparator with
  | none => exact takes_recording _ _
  | some f =>
    have hcall : Takes Recorded.count 1 (host.recorded.call f [a, b]) := takes_recording _ _
    exact (hcall.rethrow _).bind (Nat.le_refl 1) fun answer => Takes.pure _

theorem Collection.metered_slots (host : Host σ) (c : Collection) (comparator : Option Value) :
    (c.slots host.recorded comparator).Metered Recorded.count where
  get i := c.takes_get host i
  set i v := c.takes_set host i v
  less a b := host.takes_precedes comparator a b

/-! ## one action behind another -/

theorem recorded_run {x : Action (Recorded σ) α} {y : Action σ α}
    (hstep : InStep Recorded.Of (· = ·) x y) {s t : σ} {a : α} (hy : y.run s = .ok a t) :
    x.run ⟨s, []⟩ = .ok a ⟨t, requests x s⟩ := by
  have hrun := hstep.run (s := ⟨s, []⟩) (t := s) rfl
  rw [hy] at hrun
  rcases hrun with ⟨b, s', c, t', hx, hc, rfl, hst⟩ | ⟨e, s', t', _, hc, _⟩
  · cases hc
    obtain rfl : s'.state = t := hst
    rw [requests, hx]
    rfl
  · cases hc

/-- what goes on from an action makes its requests behind those of the action -/
theorem requests_bind_of_ok {β : Type} {x : Action (Recorded σ) α} {y : Action σ α}
    (hstep : InStep Recorded.Of (· = ·) x y) {s t : σ} {a : α} (hy : y.run s = .ok a t)
    (next : α → Action (Recorded σ) β) :
    requests (x >>= next) s = (finalState ((next a).run ⟨t, requests x s⟩)).requests := by
  show (finalState ((x >>= next).run _)).requests = _
  rw [run_bind, recorded_run hstep hy]

theorem requests_bind_of_error {β : Type} {x : Action (Recorded σ) α} {y : Action σ α}
    (hstep : InStep Recorded.Of (· = ·) x y) {s t : σ} {e : Error} (hy : y.run s = .error e t)
    (next : α → Action (Recorded σ) β) : requests (x >>= next) s = requests x s := by
  have hrun := hstep.run (s := ⟨s, []⟩) (t := s) rfl
  rw [hy] at hrun
  rcases hrun with ⟨b, s', c, t', _, hc, _⟩ | ⟨e', s', t', hx, _⟩
  · cases hc
  · show (finalState ((x >>= next).run _)).requests = _
    rw [run_bind, requests, hx]
    rfl

/-! ## from the entry on -/

section
variable (host : Host σ) {A : Request → Prop}

theorem ends_check_value (v : Value) (function : String) (required : Capabilities) :
    Ends (fun _ => True) (host.checkCollection (some v) 1 function required)
      (fun c _ => some v = some c.value ∧ True) fun _ _ => True := by
  have halways : ∀ {β : Type} (x : Action σ β), Keeps (fun _ => True) x :=
    fun _ => Ends.of_always (fun _ _ => trivial) fun _ _ => trivial
  exact ends_checkCollection (fun _ => halways _) (fun _ _ => halways _) (some v) 1 function _
    fun _ hs => hs

theorem value_of_check {s t : σ} {v : Value} {c : Collection} {function : String}
    {required : Capabilities}
    (hcheck : (host.checkCollection (some v) 1 function required).run s = .ok c t) : c.value = v := by
  have hvalue := ends_check_value host v function required s trivial
  rw [hcheck] at hvalue
  exact (Option.some.inj hvalue.1).symm

theorem value_of_entry {s t : σ} {v : Value} {c : Collection} {border : Int64} {function : String}
    {required : Capabilities}
    (hentry : (host.collectionWithBorder (some v) 1 function required).run s = .ok (c, border) t) :
    c.value = v := by
  have hvalue : Ends (fun _ => True) (host.collectionWithBorder (some v) 1 function required)
      (fun p _ => some v = some p.1.value) fun _ _ => True := by
    refine Ends.bind (ends_check_value host v function _) fun c => Ends.of_and fun hc => ?_
    exact Ends.bind (Ends.of_always (fun _ _ => trivial) fun _ _ => trivial) fun border =>
      Ends.pure fun _ _ => hc
  have hs := hvalue s trivial
  rw [hentry] at hs
  exact (Option.some.inj hs).symm

theorem ends_recorded_check (v : Value) (function : String) (required : Capabilities) :
    Ends (Since [] A) (host.recorded.checkCollection (some v) 1 function required)
      (fun c s => some v = some c.value ∧ Since [] A s) fun _ => Since [] A := by
  have hmetatable : ∀ w, Keeps (Since [] A) (host.recorded.metatable? w) :=
    fun _ => keeps_unrecorded _
  have hfield : ∀ id name, Keeps (Since [] A) (host.recorded.field id name) :=
    fun _ _ => keeps_unrecorded _
  exact ends_checkCollection hmetatable hfield (some v) 1 function required fun _ hs => hs

theorem requests_of_keeps {x : Action (Recorded σ) α} (hx : Keeps (Since [] A) x) (s : σ) :
    ∀ r ∈ requests x s, A r := by
  obtain ⟨rest, hrest, hall⟩ := keeps_iff.mp hx ⟨s, []⟩
    ⟨[], rfl, fun _ hr => absurd hr List.not_mem_nil⟩
  intro r hr
  rw [requests, hrest] at hr
  exact hall r hr

theorem requests_entry (v : Value) (function : String) (required : Capabilities) (s : σ) :
    ∀ r ∈ requests (host.recorded.collectionWithBorder (some v) 1 function required) s,
      r = .length v := by
  have hborder : ∀ c : Collection, v = c.value →
      Keeps (Since [] (· = .length v)) (c.border host.recorded) := by
    intro c hc
    cases c with
    | native id => exact keeps_unrecorded _
    | protocol object metatable =>
      obtain rfl : v = object := hc
      refine Keeps.bind (keeps_recording (by rfl) _) fun answer => ?_
      refine ends_lengthOf ?_ answer
      exact fun _ hs => hs
  have hkeeps : Keeps (Since [] (· = .length v))
      (host.recorded.collectionWithBorder (some v) 1 function required) := by
    refine Ends.bind (ends_recorded_check host v function _) fun c => Ends.of_and fun hc => ?_
    exact (hborder c (Option.some.inj hc)).bind fun border => Keeps.pure (c, border)
  exact requests_of_keeps hkeeps s

/-- what goes on from the entry makes its requests behind those of the entry -/
theorem requests_bind {s t : σ} {v : Value} {c : Collection} {border : Int64} {function : String}
    {required : Capabilities} {β : Type}
    (hentry : (host.collectionWithBorder (some v) 1 function required).run s = .ok (c, border) t)
    (k : Collection × Int64 → Action (Recorded σ) β) :
    requests (host.recorded.collectionWithBorder (some v) 1 function required >>= k) s
      = (finalState ((k (c, border)).run
        ⟨t, requests (host.recorded.collectionWithBorder (some v) 1 function required) s⟩)).requests
    :=
  requests_bind_of_ok (host.recorded_matching.collectionWithBorder v 1 function required) hentry k

theorem exists_requests_bind {s t : σ} {v : Value} {c : Collection} {border : Int64}
    {function : String} {required : Capabilities} {β : Type} {n : Nat} {A : Request → Prop}
    (hentry : (host.collectionWithBorder (some v) 1 function required).run s = .ok (c, border) t)
    {k : Collection × Int64 → Action (Recorded σ) β}
    (hk : ∀ r : Recorded σ, ∃ rest, (finalState ((k (c, border)).run r)).requests
        = r.requests ++ rest ∧ rest.length ≤ n ∧ ∀ r ∈ rest, A r) :
    ∃ rest, requests (host.recorded.collectionWithBorder (some v) 1 function required >>= k) s
        = requests (host.recorded.collectionWithBorder (some v) 1 function required) s ++ rest ∧
      rest.length ≤ n ∧ ∀ r ∈ rest, A r := by
  rw [requests_bind host hentry]
  exact hk _

end

end

end ScriptTables
