import ScriptTables.Proofs.Library.Borders
import ScriptTables.Proofs.Library.Gathering
import ScriptTables.Proofs.Script.Lasting

/-!
# Unpacking a range

How many keys a range has is counted in integers without bounds, and the count is compared with both
limits on results before anything is read.  Then the keys are read from the first to the last, each of
them once, and the results stand in the order of the keys.

* `Host.resultCount_run`   both limits;
* `requests_unpackEntry`   nothing but a length is asked for in front of the reads;
* `readPlan`               keys that are read, with what was found;
* `tells_gather`           what is asked for while results are gathered;
* `unpack_ranged`          the range that is refused, and the range that is read.
-/

namespace ScriptTables

/-! ## before anything is read -/

section
variable {σ : Type} {host : Host σ} {s t : σ} {list : Value} {last : Option Int64} {c : Collection}
  {lo hi : Int64}

theorem Host.resultCount_run {most : Nat}
    (hfits : ∀ n, (host.fits n).run s = .ok (decide (n ≤ most)) s) (lo hi : Int64) :
    (host.resultCount lo hi).run s =
      if 1 ≤ rangeCount lo hi ∧ rangeCount lo hi ≤ min maxResults most then
        .ok (rangeCount lo hi).toNat s
      else .error ⟨.tooManyResults, []⟩ s := by
  unfold Host.resultCount
  by_cases hcount : rangeCount lo hi ≤ 0 ∨ maxResults < rangeCount lo hi
  · rw [if_pos hcount, if_neg (by omega)]
    rfl
  · rw [if_neg hcount, run_bind_of_ok (hfits _)]
    by_cases hmost : (rangeCount lo hi).toNat ≤ most
    · rw [if_pos (decide_eq_true hmost), if_pos (by omega)]
      rfl
    · rw [if_neg (by simpa using hmost), if_neg (by omega)]
      rfl

theorem value_of_unpackEntry (h : (host.unpackEntry list last).run s = .ok (c, hi) t) :
    c.value = list := by
  cases last with
  | none => exact value_of_entry host h
  | some last =>
    rw [Host.unpackEntry, run_bind] at h
    cases hcheck : (host.checkCollection (some list) 1 "unpack" .reading).run s with
    | error e u =>
      rw [hcheck] at h
      cases h
    | ok d u =>
      rw [hcheck] at h
      cases h
      exact value_of_check host hcheck

theorem requests_unpackEntry (host : Host σ) (list : Value) (last : Option Int64) (s : σ) :
    ∀ r ∈ requests (host.recorded.unpackEntry list last) s, r = .length list := by
  cases last with
  | none => exact requests_entry host list "unpack" _ s
  | some last =>
    refine requests_of_keeps (A := (· = .length list)) ?_ s
    exact Ends.bind (ends_recorded_check host list "unpack" _) fun c =>
      Ends.of_and fun _ => Ends.pure fun _ hs => hs

end

/-! ## reading -/

def readPlan (object : Value) (keys : List Int64) (values : List Value) : Plan :=
  (keys.zip values).map fun (key, v) => (.index object (.integer key), v)

theorem mem_readPlan {object : Value} {keys : List Int64} {values : List Value}
    {x : Request × Value} (hx : x ∈ readPlan object keys values) :
    ∃ key, x.1 = .index object (.integer key) := by
  obtain ⟨⟨key, v⟩, -, rfl⟩ := List.mem_map.mp hx
  exact ⟨key, rfl⟩

theorem readPlan_ne_nil {object : Value} {keys : List Int64} {values : List Value}
    (hkeys : keys ≠ []) (hlength : values.length = keys.length) : readPlan object keys values ≠ [] := by
  intro hnil
  have hzip := congrArg List.length (List.map_eq_nil_iff.mp hnil)
  rw [List.length_zip, hlength, Nat.min_self, List.length_nil] at hzip
  exact hkeys (List.length_eq_zero_iff.mp hzip)

theorem Continues.exists_index {σ α : Type} {host : Host σ} {perform : Request → Action σ Value}
    {entry : List Request} {s t : σ} {operation : ∀ {τ : Type}, Host τ → Action τ α} {result : α}
    {object : Value} {keys : List Int64} {values : List Value}
    (h : Continues host perform entry s t operation (readPlan object keys values) result)
    (hne : readPlan object keys values ≠ []) :
    ∃ key, Request.index object key ∈ requests (operation host.recorded) s := by
  obtain ⟨xs, hrequests, -, hfollows⟩ := h
  have hasked : ∃ key, Request.index object key ∈ xs.map Prod.fst := by
    generalize (attempt (operation host) s).1 = outcome at hfollows
    cases hfollows with
    | whole =>
      obtain ⟨x, plan, hplan⟩ := List.exists_cons_of_ne_nil hne
      have hx : x ∈ readPlan object keys values := hplan ▸ List.mem_cons_self
      obtain ⟨key, hkey⟩ := mem_readPlan hx
      refine ⟨.integer key, List.mem_map.mpr ⟨(x.1, .ok x.2), ?_, hkey⟩⟩
      exact List.mem_map.mpr ⟨x, hx, rfl⟩
    | cut e hcut =>
      rename_i before after r v
      have hx : (r, v) ∈ readPlan object keys values :=
        hcut ▸ List.mem_append_right before List.mem_cons_self
      obtain ⟨key, hkey⟩ := mem_readPlan hx
      refine ⟨.integer key, List.mem_map.mpr ⟨(r, .error e), ?_, hkey⟩⟩
      exact List.mem_append_right _ (List.mem_singleton_self _)
  obtain ⟨key, hkey⟩ := hasked
  rw [hrequests]
  exact ⟨key, List.mem_append_right entry hkey⟩

namespace Talk

theorem tells_gather {σ : Type} {k : Talk σ} {host : Host σ} {A : Request → Prop} {c : Collection}
    {plan : Plan} (h : k.Serves host A) (hc : Reads A c) (n : Nat) (i : Int) :
    k.Tells plan (gather (c.get host.recorded) n i) fun values more =>
      values.length = n ∧ more = readPlan c.value ((positions i n).map Int64.ofInt) values := by
  induction n generalizing plan i with
  | zero =>
    refine (Tells.pure []).mono ?_
    rintro _ _ ⟨rfl, rfl⟩
    exact ⟨rfl, rfl⟩
  | succ n ih =>
    rw [gather_succ]
    refine (Tells.bind (tells_get h hc i) (fun v _ _ => Tells.bind (ih (i + 1))
      (fun values _ _ => Tells.pure (v :: values)) fun _ => ⟨_, _, rfl, rfl⟩) fun v => ?_).mono ?_
    · exact ⟨_, _, List.replicate n .nil, _, _, ⟨List.length_replicate, rfl⟩, ⟨rfl, rfl⟩, rfl⟩
    · rintro _ _ ⟨v, _, _, rfl, ⟨values, _, _, ⟨hlength, rfl⟩, ⟨rfl, rfl⟩, rfl⟩, rfl⟩
      rw [positions_succ, List.append_nil]
      exact ⟨congrArg (· + 1) hlength, rfl⟩

end Talk

/-! ## the operation -/

section
variable (call : Caller)

theorem resultCount_run (lo hi : Int64) (t : Machine) :
    ((Machine.host call).resultCount lo hi).run t =
      if 1 ≤ rangeCount lo hi ∧ rangeCount lo hi ≤ min maxResults t.limits.maxStack then
        .ok (rangeCount lo hi).toNat t
      else .error ⟨.tooManyResults, []⟩ t := by
  have hfits : ∀ n, ((Machine.host call).fits n).run t = .ok (decide (n ≤ t.limits.maxStack)) t :=
    fun _ => rfl
  exact Host.resultCount_run hfits lo hi

theorem resultCount_recorded_run (lo hi : Int64) (r : Recorded Machine) :
    ((Machine.host call).recorded.resultCount lo hi).run r =
      if 1 ≤ rangeCount lo hi ∧ rangeCount lo hi ≤ min maxResults r.state.limits.maxStack then
        .ok (rangeCount lo hi).toNat r
      else .error ⟨.tooManyResults, []⟩ r := by
  have hfits : ∀ n, ((Machine.host call).recorded.fits n).run r
      = .ok (decide (n ≤ r.state.limits.maxStack)) r := fun _ => rfl
  exact Host.resultCount_run hfits lo hi

variable {s t : Machine} {list : Value} {first last : Option Int64} {c : Collection} {lo hi : Int64}
  (hentry : ((Machine.host call).unpackEntry list last).run s = .ok (c, hi) t)
include hentry

theorem unpackStart_run (lo : Int64) :
    ((Machine.host call).unpackStart list lo last).run s =
      if 1 ≤ rangeCount lo hi ∧ rangeCount lo hi ≤ min maxResults t.limits.maxStack then
        .ok (c, (rangeCount lo hi).toNat) t
      else .error ⟨.tooManyResults, []⟩ t := by
  rw [Host.unpackStart, run_bind_of_ok hentry]
  dsimp only
  rw [run_bind, resultCount_run]
  by_cases hcount : 1 ≤ rangeCount lo hi ∧ rangeCount lo hi ≤ min maxResults t.limits.maxStack
  · rw [if_pos hcount, if_pos hcount]
    rfl
  · rw [if_neg hcount, if_neg hcount]

theorem requests_unpackStart :
    requests ((Machine.host call).recorded.unpackStart list lo last) s
      = requests ((Machine.host call).recorded.unpackEntry list last) s := by
  rw [Host.unpackStart,
    requests_bind_of_ok ((Machine.host call).recorded_matching.unpackEntry list last) hentry]
  dsimp only
  rw [run_bind, resultCount_recorded_run]
  by_cases hcount : 1 ≤ rangeCount lo hi ∧ rangeCount lo hi ≤ min maxResults t.limits.maxStack
  · rw [if_pos hcount]
    rfl
  · rw [if_neg hcount]
    rfl

theorem unpack_refused (hlo : first.getD 1 = lo)
    (hcount : ¬(1 ≤ rangeCount lo hi ∧ rangeCount lo hi ≤ min maxResults t.limits.maxStack)) :
    ((Machine.host call).unpack list first last).run s = .error ⟨.tooManyResults, []⟩ t ∧
      ∀ r ∈ requests ((Machine.host call).recorded.unpack list first last) s, r = .length list := by
  have hstart := unpackStart_run call hentry lo
  rw [if_neg hcount] at hstart
  rw [Host.unpack_eq, Host.unpack_eq, hlo]
  constructor
  · rw [run_bind, hstart]
  · rw [requests_bind_of_error ((Machine.host call).recorded_matching.unpackStart list lo last) hstart,
      requests_unpackStart call hentry]
    exact requests_unpackEntry _ list last s

theorem continues_unpack (hlo : first.getD 1 = lo)
    (hcount : 1 ≤ rangeCount lo hi ∧ rangeCount lo hi ≤ min maxResults t.limits.maxStack) :
    ∃ values, values.length = (rangeCount lo hi).toNat ∧
      Continues (Machine.host call) (Request.perform (Machine.host call))
        (requests ((Machine.host call).recorded.unpackEntry list last) s) s t
        (fun host => host.unpack list first last)
        (readPlan list (keysBetween lo hi) values) values := by
  have hstart := unpackStart_run call hentry lo
  rw [if_pos hcount] at hstart
  have hgather : InStep Recorded.Of (· = ·)
      (gather (c.get (Machine.host call).recorded) (rangeCount lo hi).toNat lo.toInt)
      (gather (c.get (Machine.host call)) (rangeCount lo hi).toNat lo.toInt) := by
    have hcompanions := (Machine.host call).recorded_matching.companions
    exact (Host.Companions.gather (hcompanions.get c c rfl) _ _).mono fun _ _ h => h.1
  obtain ⟨values, _, ⟨hlength, rfl⟩, hcontinues⟩ :=
    Talk.Tells.resumes (fun host => host.unpackStart list lo last) hstart
      ((Machine.host call).recorded_matching.unpackStart list lo last)
      (fun host p => gather (p.1.get host) p.2 lo.toInt)
      (fun entry => Talk.tells_gather (Talk.serves_ofHost (Machine.host call) entry t)
        (fun _ => trivial) _ _) hgather
  refine ⟨values, hlength, ?_⟩
  rw [value_of_unpackEntry hentry, requests_unpackStart call hentry] at hcontinues
  simp only [Host.unpack_eq, hlo]
  exact hcontinues

end

theorem lasting_limits (limits : Limits) : Lasting fun m => m.limits = limits where
  heap _ _ _ hm := hm
  session _ _ hm := hm
  depth _ _ hm := hm

theorem limits_of_unpackEntry {s t : Machine} {list : Value} {last : Option Int64} {c : Collection}
    {hi : Int64}
    (hentry : ((Machine.host EvalM.call).unpackEntry list last).run s = .ok (c, hi) t) :
    t.limits = s.limits := by
  have hP := lasting_limits s.limits
  have hmatching := hP.toSteady.host fun callee args => (hP.call callee args).agree
  have hkeeps := Agree.keeps (hmatching.unpackEntry list last)
  have hlimits := keeps_iff.mp hkeeps s rfl
  rw [hentry] at hlimits
  exact hlimits

/-- **A range is refused exactly when it has no key, or more keys than both limits allow; any other
range is read key by key.**  The keys are counted in integers without bounds.  Where the range is
refused nothing but a length is asked for.  Where it is read, each key is read once, from the first to
the last, and what was found stands in the result in this order; the first read that raises ends the
call. -/
theorem unpack_ranged (call : Caller) {s t : Machine} {list : Value} {first last : Option Int64}
    {c : Collection} {lo hi : Int64}
    (hentry : ((Machine.host call).unpackEntry list last).run s = .ok (c, hi) t)
    (hlo : first.getD 1 = lo) :
    ((hi.toInt - lo.toInt + 1 < 1 ∨
        (min maxResults t.limits.maxStack : Nat) < hi.toInt - lo.toInt + 1) ↔
      ((Machine.host call).unpack list first last).run s = .error ⟨.tooManyResults, []⟩ t ∧
        ∀ r ∈ requests ((Machine.host call).recorded.unpack list first last) s,
          r = .length list) ∧
    (1 ≤ hi.toInt - lo.toInt + 1 →
      hi.toInt - lo.toInt + 1 ≤ (min maxResults t.limits.maxStack : Nat) →
      ∃ (keys : List Int64) (values : List Value),
        keys.map Int64.toInt = positions lo.toInt (hi.toInt - lo.toInt + 1).toNat ∧
        (values.length : Int) = hi.toInt - lo.toInt + 1 ∧
        Continues (Machine.host call) (Request.perform (Machine.host call))
          (requests ((Machine.host call).recorded.unpackEntry list last) s) s t
          (fun host => host.unpack list first last) (readPlan list keys values) values) ∧
    (∀ r ∈ requests ((Machine.host call).recorded.unpackEntry list last) s, r = .length list) ∧
    (call = EvalM.call → t.limits = s.limits) ∧
    Fault.tooManyResults.kind = .runtime ∧
    Fault.tooManyResults.message = "too many results to unpack" := by
  have hrange : rangeCount lo hi = hi.toInt - lo.toInt + 1 := rfl
  refine ⟨⟨fun hcount => ?_, fun hrefused => ?_⟩, fun hlow hhigh => ?_,
    requests_unpackEntry _ list last s, ?_, rfl, rfl⟩
  · exact unpack_refused call hentry hlo (by omega)
  · by_contra hcount
    obtain ⟨values, hlength, hcontinues⟩ := continues_unpack call hentry hlo (by omega)
    have hkeys : (keysBetween lo hi).length = (rangeCount lo hi).toNat := length_keysBetween lo hi
    have hne : readPlan list (keysBetween lo hi) values ≠ [] := by
      refine readPlan_ne_nil (List.ne_nil_of_length_pos (by omega)) (hlength.trans hkeys.symm)
    obtain ⟨key, hkey⟩ := hcontinues.exists_index hne
    exact Request.noConfusion (hrefused.2 _ hkey)
  · obtain ⟨values, hlength, hcontinues⟩ := continues_unpack call hentry hlo ⟨hlow, hhigh⟩
    exact ⟨keysBetween lo hi, values, map_toInt_keysBetween lo hi, by omega, hcontinues⟩
  · rintro rfl
    exact limits_of_unpackEntry hentry

/-- the two greatest keys are read, and all keys are too many -/
theorem unpack_ranged_greatest :
    ((Machine.host EvalM.call).unpackEntry (.userdata ⟨0⟩) (some Int64.maxValue)).run (measuring 0)
        = .ok (.protocol (.userdata ⟨0⟩) ⟨1⟩, Int64.maxValue) (measuring 0) ∧
    (∃ (keys : List Int64) (values : List Value),
      keys.map Int64.toInt = [2 ^ 63 - 2, 2 ^ 63 - 1] ∧ values.length = 2 ∧
      Continues (Machine.host EvalM.call) (Request.perform (Machine.host EvalM.call))
        (requests ((Machine.host EvalM.call).recorded.unpackEntry (.userdata ⟨0⟩)
          (some Int64.maxValue)) (measuring 0)) (measuring 0) (measuring 0)
        (fun host => host.unpack (.userdata ⟨0⟩) (some (Int64.maxValue - 1)) (some Int64.maxValue))
        (readPlan (.userdata ⟨0⟩) keys values) values) ∧
    ((Machine.host EvalM.call).unpack (.userdata ⟨0⟩) (some Int64.minValue)
      (some Int64.maxValue)).run (measuring 0) = .error ⟨.tooManyResults, []⟩ (measuring 0) := by
  have hentry : ((Machine.host EvalM.call).unpackEntry (.userdata ⟨0⟩) (some Int64.maxValue)).run
      (measuring 0) = .ok (.protocol (.userdata ⟨0⟩) ⟨1⟩, Int64.maxValue) (measuring 0) := rfl
  have htwo := unpack_ranged EvalM.call hentry
    (rfl : (some (Int64.maxValue - 1)).getD 1 = Int64.maxValue - 1)
  have hall := unpack_ranged EvalM.call hentry (rfl : (some Int64.minValue).getD 1 = Int64.minValue)
  obtain ⟨keys, values, hkeys, hlength, hcontinues⟩ := htwo.2.1 (by decide) (by decide)
  refine ⟨hentry, ⟨keys, values, hkeys.trans (by decide), ?_, hcontinues⟩, ?_⟩
  · have hcount : Int64.maxValue.toInt - (Int64.maxValue - 1).toInt + 1 = (2 : Nat) := by decide
    exact Int.ofNat_inj.mp (hlength.trans hcount)
  · exact (hall.1.mp (Or.inr (by decide))).1

end ScriptTables
