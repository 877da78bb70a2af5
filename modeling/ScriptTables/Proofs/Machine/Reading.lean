import ScriptTables.Machine.Call
import ScriptTables.Proofs.Machine.Chain
import ScriptTables.Proofs.Machine.Links
import ScriptTables.Proofs.Plain
import ScriptTables.Proofs.Trace

/-!
# Reading along a chain

A read goes from link to link until the chain ends, and gives up when it has looked at as many links
as the limit allows.  So where a chain ends within the limit the limit does not matter, and what lies
behind the end, or behind the limit, does not matter either.

* `Machine.withLinks`     the machine with another limit;
* `indexFrom_link`        behind so many links a read starts over with what is left of the limit;
* `ReadsAt`               the outcome that belongs to a link at which a chain ends;
* `index_of_links`        the outcome where all links of the limit lead on;
* `Heap.Calls`            the function that a read calls;
* `Heap.finding`          what it finds where it calls none;
* `outcome_of_end`        the outcome depends on the links in front of the end;
* `index_follows`         all of it.
-/

namespace ScriptTables

def Machine.withLinks (m : Machine) (links : Nat) : Machine :=
  { m with limits := { m.limits with maxMetaChain := links } }

/-! ## one link -/

namespace Heap

variable {h : Heap} {key link : Value}

theorem readLink_of_held (hheld : h.held link key ≠ .nil) :
    h.readLink link key = .stop (h.held link key) := by
  cases link with
  | table id => exact if_neg (mt Value.isNil_iff.mp hheld)
  | _ => exact absurd rfl hheld

theorem readLink_of_absent {id : TableId} (hheld : h.held (.table id) key = .nil)
    (hhandler : h.metamethod (.table id) indexHook = .nil) :
    h.readLink (.table id) key = .stop .nil := by
  rw [readLink_table hhandler]
  exact congrArg Link.stop hheld

end Heap

/-! ## all links -/

section
variable {call : Caller} {m : Machine} {object key link : Value} {n links : Nat}

/-- by induction on the links that a read has behind it -/
theorem indexFrom_link (hlink : m.heap.link? indexHook key object n = some link) (links : Nat) :
    (EvalM.indexFrom call key (n + links) object).run m
      = (EvalM.indexFrom call key links link).run m := by
  induction n generalizing link links with
  | zero =>
    rw [Nat.zero_add, Option.some.inj hlink]
  | succ n ih =>
    rw [Heap.link?_succ, Option.bind_eq_some_iff] at hlink
    obtain ⟨previous, hprevious, hnext⟩ := hlink
    obtain ⟨hheld, hhandler, hne, hfunction⟩ := Heap.nextLink?_eq_some_iff.mp hnext
    rw [Nat.add_right_comm, Nat.add_assoc, ih hprevious, EvalM.indexFrom_succ_run,
      Heap.readLink_of_handler hheld hhandler hne]
    cases link with
    | function f => exact absurd rfl (hfunction f)
    | _ => rfl

/-- the outcome of a read is the one that belongs to a link at which its chain ends -/
structure ReadsAt (call : Caller) (m : Machine) (object key link : Value) : Prop where
  held : m.heap.held link key ≠ .nil →
    (EvalM.index call object key).run m = .ok (m.heap.held link key) m
  absent : ∀ id, link = .table id → m.heap.held link key = .nil →
    m.heap.metamethod link indexHook = .nil → (EvalM.index call object key).run m = .ok .nil m
  refused : (∀ id, link ≠ .table id) → m.heap.metamethod link indexHook = .nil →
    (EvalM.index call object key).run m = .error ⟨.cannotIndex link.typeName, []⟩ m
  called : ∀ f, m.heap.held link key = .nil → m.heap.metamethod link indexHook = .function f →
    (EvalM.index call object key).run m = (do
      let results ← call (.function f) [link, key]
      pure (results.headD .nil) : EvalM Value).run m

theorem readsAt_link (hn : n < links) (hlink : m.heap.link? indexHook key object n = some link) :
    ReadsAt call (m.withLinks links) object key link := by
  obtain ⟨rest, rfl⟩ := Nat.exists_eq_add_of_lt hn
  have hrun : (EvalM.index call object key).run (m.withLinks (n + rest + 1))
      = (EvalM.indexFrom call key (rest + 1) link).run (m.withLinks (n + rest + 1)) :=
    indexFrom_link (m := m.withLinks (n + rest + 1)) hlink (rest + 1)
  rw [EvalM.indexFrom_succ_run] at hrun
  refine ⟨fun hheld => ?_, fun id hid hheld hhandler => ?_, fun hother hhandler => ?_,
    fun f hheld hhandler => ?_⟩
  · rw [hrun, Heap.readLink_of_held hheld]
  · subst hid
    rw [hrun, Heap.readLink_of_absent hheld hhandler]
  · rw [hrun, Heap.readLink_of_not_table hother, if_pos (Value.isNil_iff.mpr hhandler)]
  · rw [hrun, Heap.readLink_of_handler hheld hhandler Value.noConfusion]
    rfl

theorem index_of_links (call : Caller) (h : (m.heap.link? indexHook key object links).isSome) :
    (EvalM.index call object key).run (m.withLinks links)
      = .error ⟨.readChainTooLong, []⟩ (m.withLinks links) := by
  obtain ⟨link, hlink⟩ := Option.isSome_iff_exists.mp h
  exact indexFrom_link (m := m.withLinks links) hlink 0

/-! ## what the outcome depends on -/

/-- within so many links a read comes to a function as the handler of a link -/
def Heap.Calls (h : Heap) (key object : Value) (links : Nat) (link : Value) (f : FunctionId) :
    Prop :=
  ∃ n < links, h.link? indexHook key object n = some link ∧ h.held link key = .nil ∧
    h.metamethod link indexHook = .function f

/-- what a read finds where its chain ends without a call -/
def Heap.finding (h : Heap) (key link : Value) : Except Error Value :=
  if h.held link key = .nil then
    match link with
    | .table _ => .ok .nil
    | other => .error ⟨.cannotIndex other.typeName, []⟩
  else .ok (h.held link key)

theorem Heap.finding_ne (h : Heap) (key link : Value) :
    h.finding key link ≠ .error ⟨.readChainTooLong, []⟩ := by
  unfold finding
  split
  · cases link <;> nofun
  · nofun

theorem ReadsAt.attempt_eq (h : ReadsAt call m object key link)
    (hend : m.heap.IsEnd indexHook key link)
    (hcall : ∀ f, m.heap.held link key = .nil → m.heap.metamethod link indexHook ≠ .function f) :
    attempt (EvalM.index call object key) m = (m.heap.finding key link, m) := by
  unfold Heap.finding
  by_cases hheld : m.heap.held link key = .nil
  · have hhandler : m.heap.metamethod link indexHook = .nil :=
      (hend.resolve_left (not_not.mpr hheld)).resolve_right fun ⟨f, hf⟩ => hcall f hheld hf
    rw [if_pos hheld]
    cases link with
    | table id => exact attempt_of_ok (h.absent id rfl hheld hhandler)
    | _ => exact attempt_of_error (h.refused nofun hhandler)
  · rw [if_neg hheld]
    exact attempt_of_ok (h.held hheld)

theorem attempt_bind_pure {σ τ α β : Type} {x : Action σ α} {y : Action τ α} {s : σ} {t : τ}
    (h : (attempt x s).1 = (attempt y t).1) (f : α → β) :
    (attempt (do let a ← x; pure (f a)) s).1 = (attempt (do let a ← y; pure (f a)) t).1 := by
  unfold attempt at h ⊢
  rw [run_bind, run_bind]
  cases hx : x.run s <;> cases hy : y.run t <;> rw [hx, hy] at h <;> cases h <;> rfl

/-- **Where a chain ends, nothing but the links up to there decides about the outcome:** another
machine in which they are the same has it too, if its limit reaches the end, and if the call ends
alike where there is one. -/
theorem outcome_of_end {m' : Machine} {links' : Nat} (hn : n < links) (hn' : n < links')
    (hsame : ∀ i link, i ≤ n → m.heap.link? indexHook key object i = some link →
      m'.heap.held link key = m.heap.held link key ∧
        m'.heap.metamethod link indexHook = m.heap.metamethod link indexHook)
    (hlink : m.heap.link? indexHook key object n = some link)
    (hend : m.heap.IsEnd indexHook key link)
    (hcall : ∀ f, m.heap.held link key = .nil → m.heap.metamethod link indexHook = .function f →
      (attempt (call (.function f) [link, key]) (m'.withLinks links')).1
        = (attempt (call (.function f) [link, key]) (m.withLinks links)).1) :
    (attempt (EvalM.index call object key) (m'.withLinks links')).1
      = (attempt (EvalM.index call object key) (m.withLinks links)).1 := by
  obtain ⟨hheld, hhandler⟩ := hsame n link (Nat.le_refl n) hlink
  have hlink' : m'.heap.link? indexHook key object n = some link := by
    rw [Heap.link?_congr (fun i link hi => hsame i link (Nat.le_of_lt hi)) n (Nat.le_refl n), hlink]
  have hreads : ReadsAt call (m.withLinks links) object key link := readsAt_link hn hlink
  have hreads' : ReadsAt call (m'.withLinks links') object key link := readsAt_link hn' hlink'
  by_cases hcalls : ∃ f, m.heap.held link key = .nil ∧ m.heap.metamethod link indexHook = .function f
  · obtain ⟨f, hnil, hf⟩ := hcalls
    have hrun := hreads.called f hnil hf
    have hrun' := hreads'.called f (hheld.trans hnil) (hhandler.trans hf)
    have hattempt := attempt_bind_pure (hcall f hnil hf) fun results => results.headD .nil
    unfold attempt at hattempt ⊢
    rw [hrun, hrun']
    exact hattempt
  · have hnone : ∀ f, m.heap.held link key = .nil → m.heap.metamethod link indexHook ≠ .function f :=
      fun f hnil hf => hcalls ⟨f, hnil, hf⟩
    have hend' : m'.heap.IsEnd indexHook key link := by
      rw [Heap.IsEnd, hheld, hhandler]
      exact hend
    rw [hreads.attempt_eq hend hnone, hreads'.attempt_eq hend' fun f hnil hf =>
      hnone f (hheld.symm.trans hnil) (hhandler.symm.trans hf)]
    show m'.heap.finding key link = m.heap.finding key link
    unfold Heap.finding
    rw [hheld]

/-- only a function that is called changes anything -/
theorem finalState_index (hcalls : ∀ link f, ¬m.heap.Calls key object links link f) :
    finalState ((EvalM.index call object key).run (m.withLinks links)) = m.withLinks links := by
  rcases m.heap.exists_end_or_isSome indexHook key object links with
    ⟨n, link, hn, hlink, hend⟩ | hsome
  · have hreads : ReadsAt call (m.withLinks links) object key link := readsAt_link hn hlink
    rw [← attempt_snd, hreads.attempt_eq hend fun f hnil hf =>
      hcalls link f ⟨n, hn, hlink, hnil, hf⟩]
  · rw [index_of_links call hsome]
    rfl

/-- the fault of a chain that is too long is the read's own, whatever calls do, when no link within
the limit ends the chain -/
theorem index_too_long_iff :
    (∀ call : Caller, (EvalM.index call object key).run (m.withLinks links)
        = .error ⟨.readChainTooLong, []⟩ (m.withLinks links)) ↔
      ∀ n link, n < links → m.heap.link? indexHook key object n = some link →
        ¬m.heap.IsEnd indexHook key link := by
  refine ⟨fun hrun n link hn hlink hend => ?_, fun hends call => ?_⟩
  · have hattempt := attempt_of_error (hrun fun _ _ => pure [])
    have hreads : ReadsAt (fun _ _ => pure []) (m.withLinks links) object key link :=
      readsAt_link hn hlink
    by_cases hcalls : ∃ f, m.heap.held link key = .nil ∧
        m.heap.metamethod link indexHook = .function f
    · obtain ⟨f, hnil, hf⟩ := hcalls
      rw [attempt, hreads.called f hnil hf] at hattempt
      cases hattempt
    · rw [hreads.attempt_eq hend fun f hnil hf => hcalls ⟨f, hnil, hf⟩] at hattempt
      exact Heap.finding_ne _ key link (congrArg Prod.fst hattempt)
  · exact index_of_links call (Heap.isSome_link?_iff.mpr hends)

end

/-- **A read looks at the links of its chain up to the limit, and has the outcome of the first one at
which the chain ends:** what a table holds raw there, `nil` at a table without a handler, an error at
another value without one, the first result of a function that is called with the link and the key.
It gives up exactly where no link within the limit ends the chain, as on every cycle.  Without a call
it changes nothing.  A larger limit changes an outcome only where the read gave up or where a call
tells the limits apart, and not even there if the limit is larger for this read alone; and so
does everything that is not looked at. -/
theorem index_follows (call : Caller) (m : Machine) (object key : Value) (links : Nat) :
    (∀ n link, n < links → m.heap.link? indexHook key object n = some link →
      ReadsAt call (m.withLinks links) object key link) ∧
    ((∀ call : Caller, (EvalM.index call object key).run (m.withLinks links)
        = .error ⟨.readChainTooLong, []⟩ (m.withLinks links)) ↔
      ∀ n link, n < links → m.heap.link? indexHook key object n = some link →
        ¬m.heap.IsEnd indexHook key link) ∧
    (∀ i j link, i < j → m.heap.link? indexHook key object i = some link →
      m.heap.link? indexHook key object j = some link →
      (EvalM.index call object key).run (m.withLinks links)
        = .error ⟨.readChainTooLong, []⟩ (m.withLinks links)) ∧
    ((∀ link f, ¬m.heap.Calls key object links link f) →
      finalState ((EvalM.index call object key).run (m.withLinks links)) = m.withLinks links) ∧
    (∀ more, links ≤ more →
      ((∀ link f, m.heap.Calls key object links link f →
          (attempt (call (.function f) [link, key]) (m.withLinks more)).1
            = (attempt (call (.function f) [link, key]) (m.withLinks links)).1) →
        (attempt (EvalM.index call object key) (m.withLinks links)).1
            ≠ .error ⟨.readChainTooLong, []⟩ →
        (attempt (EvalM.index call object key) (m.withLinks more)).1
          = (attempt (EvalM.index call object key) (m.withLinks links)).1) ∧
      ((EvalM.indexFrom call key links object).run m = .error ⟨.readChainTooLong, []⟩ m ∨
        (EvalM.indexFrom call key more object).run m
          = (EvalM.indexFrom call key links object).run m)) ∧
    (∀ m' : Machine,
      (∀ n link, n < links → m.heap.link? indexHook key object n = some link →
        m'.heap.held link key = m.heap.held link key ∧
          m'.heap.metamethod link indexHook = m.heap.metamethod link indexHook) →
      (∀ link f, m.heap.Calls key object links link f →
        (attempt (call (.function f) [link, key]) (m'.withLinks links)).1
          = (attempt (call (.function f) [link, key]) (m.withLinks links)).1) →
      (attempt (EvalM.index call object key) (m'.withLinks links)).1
        = (attempt (EvalM.index call object key) (m.withLinks links)).1) ∧
    (∀ type : TypeName, (Fault.cannotIndex type).kind = .type ∧
      (Fault.cannotIndex type).message = "attempt to index a " ++ type.text ++ " value") ∧
    Fault.readChainTooLong.kind = .runtime ∧
    Fault.readChainTooLong.message = "'__index' chain too long; possible loop" := by
  refine ⟨fun n link hn hlink => readsAt_link hn hlink, index_too_long_iff,
    fun i j link hij hi hj => index_of_links call (Heap.isSome_link?_of_cycle hij hi hj links),
    finalState_index, fun more hmore => ⟨fun hcalls houtcome => ?_, ?_⟩,
    fun m' hsame hcalls => ?_, fun _ => ⟨rfl, rfl⟩, rfl, rfl⟩
  · rcases m.heap.exists_end_or_isSome indexHook key object links with
      ⟨n, link, hn, hlink, hend⟩ | hsome
    · exact outcome_of_end hn (Nat.lt_of_lt_of_le hn hmore) (fun _ _ _ _ => ⟨rfl, rfl⟩) hlink hend
        fun f hnil hf => hcalls link f ⟨n, hn, hlink, hnil, hf⟩
    · rw [attempt_of_error (index_of_links call hsome)] at houtcome
      exact absurd rfl houtcome
  · obtain ⟨rest, rfl⟩ := Nat.exists_eq_add_of_le hmore
    exact EvalM.indexFrom_add call key m links rest object
  · rcases m.heap.exists_end_or_isSome indexHook key object links with
      ⟨n, link, hn, hlink, hend⟩ | hsome
    · exact outcome_of_end hn hn (fun i link hi => hsame i link (Nat.lt_of_le_of_lt hi hn)) hlink hend
        fun f hnil hf => hcalls link f ⟨n, hn, hlink, hnil, hf⟩
    · have hsome' : (m'.heap.link? indexHook key object links).isSome := by
        rw [Heap.link?_congr hsame links (Nat.le_refl links)]
        exact hsome
      rw [attempt_of_error (index_of_links call hsome),
        attempt_of_error (index_of_links call hsome')]

/-- an opaque object whose handler is a table that holds one key and is its own handler -/
def ringed : Machine where
  heap := {
    tables := ⟨#[{}, ({} : Table).setString indexHook (.table ⟨2⟩),
      { ({} : Table).setString "held" (.integer 7) with metatable := some ⟨1⟩ }]⟩
    userdata := ⟨#[⟨some ⟨1⟩⟩]⟩ }
  globals := ⟨0⟩
  limits := {}

/-- two links are enough for the key that the table holds, and none for another key -/
theorem index_follows_ringed :
    (EvalM.index EvalM.call (.userdata ⟨0⟩) (.string "held")).run (ringed.withLinks 2)
        = .ok (.integer 7) (ringed.withLinks 2) ∧
      (EvalM.index EvalM.call (.userdata ⟨0⟩) (.string "held")).run (ringed.withLinks 1)
        = .error ⟨.readChainTooLong, []⟩ (ringed.withLinks 1) ∧
      ∀ links, (EvalM.index EvalM.call (.userdata ⟨0⟩) (.string "other")).run
        (ringed.withLinks links) = .error ⟨.readChainTooLong, []⟩ (ringed.withLinks links) := by
  refine ⟨?_, ?_, fun links => ?_⟩
  · have hlink : ringed.heap.link? indexHook (.string "held") (.userdata ⟨0⟩) 1
        = some (.table ⟨2⟩) := by decide
    exact ((index_follows EvalM.call ringed (.userdata ⟨0⟩) (.string "held") 2).1 1 (.table ⟨2⟩)
      (by decide) hlink).held (by decide)
  · refine (index_follows EvalM.call ringed (.userdata ⟨0⟩) (.string "held") 1).2.1.mpr ?_ EvalM.call
    intro n link hn hlink hend
    obtain rfl : n = 0 := by omega
    rw [← Option.some.inj hlink] at hend
    exact absurd (Heap.nextLink?_eq_none_iff.mpr hend) (by decide)
  · have hfirst : ringed.heap.link? indexHook (.string "other") (.userdata ⟨0⟩) 1
        = some (.table ⟨2⟩) := by decide
    have hsecond : ringed.heap.link? indexHook (.string "other") (.userdata ⟨0⟩) 2
        = some (.table ⟨2⟩) := by decide
    exact (index_follows EvalM.call ringed (.userdata ⟨0⟩) (.string "other") links).2.2.1 1 2 _
      (by decide) hfirst hsecond

end ScriptTables
