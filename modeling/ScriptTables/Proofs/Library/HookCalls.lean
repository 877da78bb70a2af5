import ScriptTables.Machine.Call
import ScriptTables.Proofs.Library.Objects
import ScriptTables.Proofs.Library.Transcripts

/-!
# Which hooks are called

An object that stands for a list sees every access to it: each one is a call of a hook.  The hooks may
answer anything, raise at any call, and change whatever they can reach, as long as the object keeps
functions as its hooks.  The calls that an operation makes are still known in advance, but for the
values, which are those that were read.

* `Request.byHook`     a request of an object as one call of a hook;
* `KeepsHooks`         what hooks must leave alone;
* `Measures`           what the length hook answers;
* `movePairs`          the order of the copies of a move between objects;
* `tells_insert`, `tells_remove`, `tells_move`   the requests of the operations;
* `hooks_called`       the calls, in their order, with what they carry.
-/

namespace ScriptTables

/-! ## hooks -/

/-- A request of an object as one call of the hook that its metatable holds then. -/
def Request.byHook (call : Caller) : Request → EvalM Value
  | .length object => do
    let hook ← EvalM.readHeap fun h => h.metamethod object lengthHook
    EvalM.callFirst call hook [object]
  | .index object key => do
    let hook ← EvalM.readHeap fun h => h.metamethod object indexHook
    EvalM.callFirst call hook [object, key]
  | .setIndex object key v => do
    let hook ← EvalM.readHeap fun h => h.metamethod object newIndexHook
    let _ ← call hook [object, key, v]
    pure .nil
  | r => r.perform (Machine.host call)

def Request.Of (object : Value) : Request → Prop
  | .length target | .index target _ | .setIndex target _ _ => target = object
  | _ => False

/-- Hooks may answer anything, raise, and change anything but what `P` says: that the object has
functions as hooks, and that a chain may have a link. -/
structure KeepsHooks (call : Caller) (P : Machine → Prop) (o : UserdataId) : Prop where
  links : ∀ m, P m → m.limits.maxMetaChain ≠ 0
  hooks : ∀ m, P m → m.heap.Hooks o
  keeps : ∀ r : Request, r.Of (.userdata o) → Keeps P (r.byHook call)

/-- if the object answers what its length is, that is `b` -/
def Measures (call : Caller) (o : UserdataId) (m : Machine) (b : Int64) : Prop :=
  ∀ answer t, ((Request.length (.userdata o)).byHook call).run m = .ok answer t →
    answer.asLength? = some b

section
variable {call : Caller} {P : Machine → Prop} {o : UserdataId} {m : Machine}

theorem KeepsHooks.perform_run (ho : KeepsHooks call P o) {r : Request} (hr : r.Of (.userdata o))
    (hm : P m) : (r.perform (Machine.host call)).run m = (r.byHook call).run m := by
  have hhooks := ho.hooks m hm
  have hlinks := ho.links m hm
  cases r with
  | length object =>
    obtain rfl : object = .userdata o := hr
    obtain ⟨f, hf⟩ := hhooks.length
    show (EvalM.length call (.userdata o)).run m
      = (EvalM.callFirst call (m.heap.metamethod (.userdata o) lengthHook) [.userdata o]).run m
    rw [hf, EvalM.length_userdata call hf]
  | index object key =>
    obtain rfl : object = .userdata o := hr
    obtain ⟨f, hf⟩ := hhooks.index
    show (EvalM.index call (.userdata o) key).run m
      = (EvalM.callFirst call (m.heap.metamethod (.userdata o) indexHook) [.userdata o, key]).run m
    rw [hf, EvalM.index_userdata call hf hlinks]
  | setIndex object key v =>
    obtain rfl : object = .userdata o := hr
    obtain ⟨f, hf⟩ := hhooks.newIndex
    show (do EvalM.setIndex call (.userdata o) key v; pure Value.nil : EvalM Value).run m
      = (do let _ ← call (m.heap.metamethod (.userdata o) newIndexHook) [.userdata o, key, v]
            pure Value.nil : EvalM Value).run m
    rw [hf, run_bind, EvalM.setIndex_userdata call hf hlinks, run_bind, run_bind]
    cases (call (.function f) [.userdata o, key, v]).run m <;> rfl
  | lessThan a b => exact hr.elim
  | call callee arguments => exact hr.elim

/-- the calls of hooks of some objects, from a machine on -/
def hookTalk (call : Caller) (P : Machine → Prop) (m : Machine) : Talk Machine where
  perform := Request.byHook call
  Kept := P
  entry := []
  start := m

theorem hookTalk_serves {o' : UserdataId} (ho : KeepsHooks call P o) (ho' : KeepsHooks call P o') :
    (hookTalk call P m).Serves (Machine.host call) fun r =>
      r.Of (.userdata o) ∨ r.Of (.userdata o') where
  run r hr _ ht := by
    rcases hr with hr | hr
    · exact ho.perform_run hr ht
    · exact ho'.perform_run hr ht
  keeps r hr := by
    rcases hr with hr | hr
    · exact ho.keeps r hr
    · exact ho'.keeps r hr

theorem reads_object {o' : UserdataId} (metatable : TableId) :
    Talk.Reads (fun r => r.Of (.userdata o) ∨ r.Of (.userdata o'))
      (.protocol (.userdata o) metatable) :=
  fun _ => Or.inl rfl

theorem writes_object {o' : UserdataId} (metatable : TableId) :
    Talk.Writes (fun r => r.Of (.userdata o) ∨ r.Of (.userdata o'))
      (.protocol (.userdata o') metatable) :=
  fun _ _ => Or.inr rfl

/-! ## the entry -/

theorem tells_check (ho : KeepsHooks call P o) {plan : Plan} (position : Nat) (function : String)
    (required : Capabilities) :
    (hookTalk call P m).Tells plan
      ((Machine.host call).recorded.checkCollection (some (.userdata o)) position function required)
      fun c more => (∃ metatable, c = .protocol (.userdata o) metatable) ∧ more = [] := by
  intro t ht
  have hhooks := ho.hooks t.state ht.kept
  obtain ⟨metatable, hid⟩ := hhooks.exists_metatable
  have hmetatable : ((Machine.host call).recorded.metatable? (.userdata o)).run t
      = .ok (some metatable) t := congrArg (EStateM.Result.ok · t) hid
  rw [checkCollection_userdata hmetatable (fun _ => rfl) (hhooks.held hid)]
  refine ⟨[], ⟨⟨metatable, rfl⟩, rfl⟩, ?_⟩
  rw [List.append_nil]
  exact ht

theorem tells_border (ho : KeepsHooks call P o) {b : Int64} (hb : Measures call o m b)
    (metatable : TableId) :
    (hookTalk call P m).Tells []
      ((Collection.protocol (.userdata o) metatable).border (Machine.host call).recorded)
      fun border more => border = b ∧
        ∃ answer : Value, answer.asLength? = some b ∧ more = [(.length (.userdata o), answer)] := by
  have hr : (Request.length (.userdata o)).Of (.userdata o) := rfl
  have hanswer : ∀ t v u, Performed (Request.byHook call) m [] t → P t →
      ((Machine.host call).length (.userdata o)).run t = .ok v u → v.asLength? = some b := by
    intro t v u ht hkept hv
    obtain rfl := ht.eq_of_nil
    exact hb v u ((ho.perform_run hr hkept).symm.trans hv)
  have hlength : (hookTalk call P m).Tells [] ((Machine.host call).recorded.length (.userdata o))
      fun v more => v.asLength? = some b ∧ more = [(.length (.userdata o), v)] :=
    Talk.tells_answer (hookTalk_serves ho ho) (Or.inl hr) (bind_pure _).symm ⟨.integer b, rfl⟩ hanswer
  have hdenoted : ∀ (v : Value) (first : Plan),
      v.asLength? = some b ∧ first = [(.length (.userdata o), v)] →
      (hookTalk call P m).Tells ([] ++ first) (Collection.lengthOf v)
        fun border more => border = b ∧ more = [] := by
    intro v first hfirst
    rw [lengthOf_eq, hfirst.1]
    exact Talk.Tells.pure b
  refine (hlength.bind hdenoted fun _ => ⟨b, [], rfl, rfl⟩).mono ?_
  rintro _ _ ⟨v, _, _, ⟨hv, rfl⟩, ⟨rfl, rfl⟩, rfl⟩
  exact ⟨rfl, v, hv, rfl⟩

theorem tells_withBorder (ho : KeepsHooks call P o) {b : Int64} (hb : Measures call o m b)
    (function : String) (required : Capabilities) {α : Type}
    {next : Collection × Int64 → Action (Recorded Machine) α} {plans : α → Plan → Prop}
    (hnext : ∀ metatable first, (hookTalk call P m).Tells first
      (next (.protocol (.userdata o) metatable, b)) plans) (hsome : ∃ a more, plans a more) :
    (hookTalk call P m).Tells []
      ((Machine.host call).recorded.collectionWithBorder (some (.userdata o)) 1 function required
        >>= next)
      fun a more => ∃ answer rest, Value.asLength? answer = some b ∧ plans a rest ∧
        more = (.length (.userdata o), answer) :: rest := by
  have hborder : (hookTalk call P m).Tells [] ((Machine.host call).recorded.collectionWithBorder
      (some (.userdata o)) 1 function required) fun q more =>
        (∃ metatable, q = (.protocol (.userdata o) metatable, b)) ∧
        ∃ answer : Value, answer.asLength? = some b ∧ more = [(.length (.userdata o), answer)] := by
    have hmeasured : ∀ (c : Collection) (first : Plan),
        (∃ metatable, c = .protocol (.userdata o) metatable) ∧ first = [] →
        (hookTalk call P m).Tells ([] ++ first)
          (do let border ← c.border (Machine.host call).recorded; pure (c, border)) fun q more =>
          (∃ metatable, q = (.protocol (.userdata o) metatable, b)) ∧
          ∃ answer : Value, answer.asLength? = some b ∧ more = [(.length (.userdata o), answer)] := by
      rintro _ _ ⟨⟨metatable, rfl⟩, rfl⟩
      refine ((tells_border ho hb metatable).bind (fun border _ _ => Talk.Tells.pure
        (Collection.protocol (.userdata o) metatable, border)) fun _ => ⟨_, _, rfl, rfl⟩).mono ?_
      rintro _ _ ⟨_, _, _, ⟨rfl, answer, hanswer, rfl⟩, ⟨rfl, rfl⟩, rfl⟩
      exact ⟨⟨metatable, rfl⟩, answer, hanswer, rfl⟩
    refine ((tells_check ho 1 function _).bind hmeasured fun _ =>
      ⟨(.protocol (.userdata o) ⟨0⟩, b), _, ⟨⟨0⟩, rfl⟩, .integer b, rfl, rfl⟩).mono ?_
    rintro _ _ ⟨_, _, _, ⟨_, rfl⟩, hq, rfl⟩
    exact hq
  refine (hborder.bind (fun q first hq => ?_) fun _ => hsome).mono ?_
  · obtain ⟨metatable, rfl⟩ := hq.1
    exact hnext metatable _
  · rintro a _ ⟨q, _, rest, ⟨_, answer, hanswer, rfl⟩, hrest, rfl⟩
    exact ⟨answer, rest, hanswer, hrest, rfl⟩

/-! ## the operations -/

/-- The pairs of a move: upward where the destination lies behind the source range or starts no later
than it, and where it is another object. -/
def movePairs (r : MoveRange) (o o' : UserdataId) : List (Int × Int) :=
  if r.last.toInt < r.destination.toInt ∨ r.destination.toInt ≤ r.first.toInt ∨ ¬o = o' then
    upward r.first.toInt r.destination.toInt r.count.toNat
  else (upward r.first.toInt r.destination.toInt r.count.toNat).reverse

theorem tells_insert (ho : KeepsHooks call P o) {b : Int64} (hb : Measures call o m b)
    (hfits : b.toInt + 2 < 2 ^ 63) {position : Option Int64} {p : Int}
    (hp : position.elim (b.toInt + 1) Int64.toInt = p) (hlow : 1 ≤ p) (hhigh : p ≤ b.toInt + 1)
    (v : Value) :
    (hookTalk call P m).Tells [] ((Machine.host call).recorded.insert (.userdata o) position v)
      fun _ more => ∃ answer rest, Value.asLength? answer = some b ∧
        Talk.Copying (b.toInt + 1 - p).toNat (insertPlan (.userdata o) (b.toInt + 1) p v) rest ∧
        more = (.length (.userdata o), answer) :: rest := by
  have hlast : Collection.appendPosition b = b.toInt + 1 := toInt_succ (by omega)
  have hstart : position = none ∨ p + 1 < 2 ^ 63 := Or.inr (by omega)
  refine tells_withBorder ho hb "insert" _ (fun metatable first => ?_) ⟨(), Talk.exists_copying _ _⟩
  rw [← hlast] at hp hhigh ⊢
  exact Talk.tells_insertAt (hookTalk_serves ho ho) (reads_object metatable) (writes_object metatable)
    hp hlow hhigh hstart v

theorem tells_remove (ho : KeepsHooks call P o) {b : Int64} (hb : Measures call o m b)
    {position : Option Int64} {p : Int64} (hp : position.getD b = p)
    (hin : Collection.isRemovable b p = true) :
    (hookTalk call P m).Tells [] ((Machine.host call).recorded.remove (.userdata o) position)
      fun r more => ∃ answer rest, Value.asLength? answer = some b ∧
        (∃ removed, r = some removed ∧ Talk.Copying (b.toInt - p.toInt).toNat
          (removePlan (.userdata o) b.toInt p.toInt removed) rest) ∧
        more = (.length (.userdata o), answer) :: rest := by
  obtain ⟨rest, hrest⟩ := Talk.exists_copying (b.toInt - p.toInt).toNat
    (removePlan (.userdata o) b.toInt p.toInt .nil)
  refine tells_withBorder ho hb "remove" _ (fun metatable first => ?_) ⟨_, rest, .nil, rfl, hrest⟩
  exact Talk.tells_removeAt (hookTalk_serves ho ho) (reads_object metatable) (writes_object metatable)
    hp hin

theorem schedule_objects (r : MoveRange) (o o' : UserdataId) (metatable metatable' : TableId) :
    r.schedule (.protocol (.userdata o) metatable) (.protocol (.userdata o') metatable')
      = movePairs r o o' := by
  have hsame : (Collection.protocol (.userdata o) metatable).sameAs
      (.protocol (.userdata o') metatable') = (Value.userdata o == .userdata o') := rfl
  unfold MoveRange.schedule movePairs
  rw [hsame]
  refine if_congr ?_ rfl rfl
  rw [Bool.or_eq_true, r.isClear_iff, Bool.not_eq_true', beq_eq_false_iff_ne, ne_eq,
    Value.userdata.injEq, or_assoc]

theorem tells_copies {o' : UserdataId} (ho : KeepsHooks call P o) (ho' : KeepsHooks call P o')
    {r : MoveRange} (hne : ¬r.isEmpty = true) (hfault : r.fault? = none) {plan : Plan}
    {c d : Collection} (hc : ∃ metatable, c = .protocol (.userdata o) metatable)
    (hd : ∃ metatable, d = .protocol (.userdata o') metatable) :
    (hookTalk call P m).Tells plan
      (do (Machine.host call).recorded.moveBetween c r d; pure d.value)
      fun result more => result = .userdata o' ∧
        Talk.Copying r.count.toNat (copyPlan (.userdata o) (.userdata o') (movePairs r o o')) more := by
  obtain ⟨metatable, rfl⟩ := hc
  obtain ⟨metatable', rfl⟩ := hd
  rw [← schedule_objects r o o' metatable metatable']
  refine ((Talk.tells_moveBetween (hookTalk_serves ho ho') (reads_object metatable)
    (writes_object metatable') hne hfault).bind (fun _ _ _ => Talk.Tells.pure _)
    fun _ => ⟨_, _, rfl, rfl⟩).mono ?_
  rintro _ _ ⟨_, more, _, hmore, ⟨rfl, rfl⟩, rfl⟩
  rw [List.append_nil]
  exact ⟨rfl, hmore⟩

theorem tells_move {o' : UserdataId} (ho : KeepsHooks call P o) (ho' : KeepsHooks call P o')
    {r : MoveRange} (hne : ¬r.isEmpty = true) (hfault : r.fault? = none) {target : Option Value}
    (htarget : target.getD (.userdata o) = .userdata o') :
    (hookTalk call P m).Tells [] ((Machine.host call).recorded.move (.userdata o) r target)
      fun result more => result = .userdata o' ∧
        Talk.Copying r.count.toNat (copyPlan (.userdata o) (.userdata o') (movePairs r o o')) more := by
  obtain ⟨rest, hrest⟩ := Talk.exists_copying r.count.toNat
    (copyPlan (.userdata o) (.userdata o') (movePairs r o o'))
  -- the target is checked in its own place, or in that of the source
  have hwritable : ∀ c : Collection, (∃ metatable, c = .protocol (.userdata o) metatable) →
      ∀ (plan : Plan) (position : Nat) (required : Capabilities), (hookTalk call P m).Tells plan
        (do
          let d ← (Machine.host call).recorded.checkCollection (some (.userdata o')) position "move"
            required
          (Machine.host call).recorded.moveBetween c r d
          pure d.value)
        fun result more => result = .userdata o' ∧ Talk.Copying r.count.toNat
          (copyPlan (.userdata o) (.userdata o') (movePairs r o o')) more := by
    intro c hc plan position required
    refine ((tells_check ho' position "move" required).bind
      (fun d _ hd => tells_copies ho ho' hne hfault hc hd.1) fun _ => ⟨_, rest, rfl, hrest⟩).mono ?_
    rintro _ _ ⟨_, _, more, ⟨_, rfl⟩, hmore, rfl⟩
    exact hmore
  cases target with
  | none =>
    obtain rfl : o = o' := Value.userdata.inj htarget
    refine ((tells_check ho 1 "move" .reading).bind
      (fun c _ hc => hwritable c hc.1 _ 1 .writing) fun _ => ⟨_, rest, rfl, hrest⟩).mono ?_
    rintro _ _ ⟨_, _, more, ⟨_, rfl⟩, hmore, rfl⟩
    exact hmore
  | some target =>
    obtain rfl : target = .userdata o' := htarget
    refine ((tells_check ho 1 "move" .reading).bind
      (fun c _ hc => hwritable c hc.1 _ 5 .writing) fun _ => ⟨_, rest, rfl, hrest⟩).mono ?_
    rintro _ _ ⟨_, _, more, ⟨_, rfl⟩, hmore, rfl⟩
    exact hmore

theorem unspoilt_movePlan {r : MoveRange} (hne : ¬r.isEmpty = true) (hfault : r.fault? = none)
    (o o' : UserdataId) (copied : List Value) :
    Unspoilt (copyPlan (.userdata o) (.userdata o') (movePairs r o o') copied) := by
  refine unspoilt_copyPlan _ (fun hsame => ?_) copied
  obtain rfl : o = o' := Value.userdata.inj hsame
  have hlong := mt r.isEmpty_iff.mpr hne
  have hcount : (r.count.toNat : Int) = r.last.toInt - r.first.toInt + 1 := by
    rw [Int.toNat_of_nonneg (by omega)]
    rfl
  have hend := r.destination_le hfault
  have hfirst := r.first.le_toInt
  have hlast := r.last.toInt_lt
  have hdestination := r.destination.le_toInt
  unfold movePairs
  split
  · next hclear =>
    rw [or_iff_left (not_not.mpr rfl)] at hclear
    exact upward_clear (by omega) (by omega) (by omega)
  · next hbehind => exact downward_clear (by omega) (by omega) (by omega)

/-! ## the calls -/

theorem called_insert (ho : KeepsHooks call P o) (hm : P m) {b : Int64} (hb : Measures call o m b)
    (hfits : b.toInt + 2 < 2 ^ 63) {position : Option Int64} {p : Int}
    (hp : position.elim (b.toInt + 1) Int64.toInt = p) (hlow : 1 ≤ p) (hhigh : p ≤ b.toInt + 1)
    (v : Value) :
    ∃ answer copied plan, Value.asLength? answer = some b ∧
      copied.length = (b.toInt + 1 - p).toNat ∧
      plan = (.length (.userdata o), answer)
        :: insertPlan (.userdata o) (b.toInt + 1) p v copied ∧
      Obeys (Machine.host call) (Request.byHook call) m
        (fun host => host.insert (.userdata o) position v) plan () ∧
      Unspoilt plan := by
  obtain ⟨_, plan, ⟨answer, _, hanswer, ⟨copied, hlength, rfl⟩, rfl⟩, hobeys⟩ :=
    Talk.Tells.obeys (fun host => host.insert (.userdata o) position v)
      (tells_insert ho hb hfits hp hlow hhigh v) rfl hm
      ((Machine.host call).recorded_matching.companions.insert rfl position trivial)
  refine ⟨answer, copied, _, hanswer, hlength, rfl, hobeys, ?_⟩
  exact (unspoilt_insertPlan _ hlow hhigh (by omega) v copied).cons fun _ _ _ h => Request.noConfusion h

theorem called_remove (ho : KeepsHooks call P o) (hm : P m) {b : Int64} (hb : Measures call o m b)
    (hfits : b.toInt + 1 < 2 ^ 63) {position : Option Int64} {p : Int64} (hp : position.getD b = p)
    (hin : p = b ∨ 1 ≤ p.toInt ∧ p.toInt ≤ b.toInt + 1) :
    ∃ answer removed copied plan, Value.asLength? answer = some b ∧
      copied.length = (b.toInt - p.toInt).toNat ∧
      plan = (.length (.userdata o), answer)
        :: removePlan (.userdata o) b.toInt p.toInt removed copied ∧
      Obeys (Machine.host call) (Request.byHook call) m
        (fun host => host.remove (.userdata o) position) plan (some removed) ∧
      Unspoilt plan := by
  have hremovable : Collection.isRemovable b p = true :=
    (isRemovable_iff hfits).mpr (hin.imp_left fun hpb => congrArg Int64.toInt hpb)
  have hstep : InStep Recorded.Of (· = ·) ((Machine.host call).recorded.remove (.userdata o) position)
      ((Machine.host call).remove (.userdata o) position) :=
    ((Machine.host call).recorded_matching.companions.remove rfl position).mono fun _ _ hab => hab.1
  obtain ⟨_, plan, ⟨answer, _, hanswer, ⟨removed, rfl, copied, hlength, rfl⟩, rfl⟩, hobeys⟩ :=
    Talk.Tells.obeys (fun host => host.remove (.userdata o) position)
      (tells_remove ho hb hp hremovable) rfl hm hstep
  refine ⟨answer, removed, copied, _, hanswer, hlength, rfl, hobeys, ?_⟩
  exact (unspoilt_removePlan _ p.le_toInt p.toInt_lt b.toInt_lt removed copied).cons
    fun _ _ _ h => Request.noConfusion h

theorem called_move {o' : UserdataId} (ho : KeepsHooks call P o) (ho' : KeepsHooks call P o')
    (hm : P m) {r : MoveRange} {target : Option Value}
    (htarget : target.getD (.userdata o) = .userdata o') (hne : ¬r.isEmpty = true)
    (hfault : r.fault? = none) :
    ∃ copied plan, copied.length = r.count.toNat ∧
      plan = copyPlan (.userdata o) (.userdata o') (movePairs r o o') copied ∧
      Obeys (Machine.host call) (Request.byHook call) m
        (fun host => host.move (.userdata o) r target) plan (.userdata o') ∧
      Unspoilt plan := by
  obtain ⟨_, plan, ⟨rfl, copied, hlength, rfl⟩, hobeys⟩ :=
    Talk.Tells.obeys (fun host => host.move (.userdata o) r target)
      (tells_move ho ho' hne hfault htarget) rfl hm
      ((Machine.host call).recorded_matching.move _ r target)
  exact ⟨copied, _, hlength, rfl, hobeys, unspoilt_movePlan hne hfault o o' copied⟩

end

/-- **Which hooks an insertion, a removal and a move call, in which order, and with what.**  The hooks
are functions; they may answer anything and raise at any call, and may change whatever they like but
that.  Then what an operation asks for is a list that was known in advance but for the answers, and
each request is one call of a hook:

* an insertion at `p` asks for the length, then moves up what is under `b, ..., p`, the last one
  first, and then writes at `p`;
* a removal at `p` asks for the length and reads at `p`, then moves down what is under
  `p + 1, ..., b`, the first one first, and then clears the last position;
* a move does not ask for the length; it copies in the order that `movePairs` tells.

Each value that is written was read in the request before.  Where a hook raises, its error is that of
the operation, and it was the last one to be called.  No position that is still to be read is
written. -/
theorem hooks_called (call : Caller) {P : Machine → Prop} {o : UserdataId}
    (ho : KeepsHooks call P o) :
    (∀ (m : Machine) (b : Int64) (position : Option Int64) (p : Int) (v : Value),
      P m → Measures call o m b → b.toInt + 2 < 2 ^ 63 →
      position.elim (b.toInt + 1) Int64.toInt = p → 1 ≤ p → p ≤ b.toInt + 1 →
      ∃ answer copied plan, Value.asLength? answer = some b ∧
        copied.length = (b.toInt + 1 - p).toNat ∧
        plan = (.length (.userdata o), answer)
          :: insertPlan (.userdata o) (b.toInt + 1) p v copied ∧
        Obeys (Machine.host call) (Request.byHook call) m
          (fun host => host.insert (.userdata o) position v) plan () ∧
        Unspoilt plan) ∧
    (∀ (m : Machine) (b : Int64) (position : Option Int64) (p : Int64),
      P m → Measures call o m b → b.toInt + 1 < 2 ^ 63 →
      position.getD b = p → (p = b ∨ 1 ≤ p.toInt ∧ p.toInt ≤ b.toInt + 1) →
      ∃ answer removed copied plan, Value.asLength? answer = some b ∧
        copied.length = (b.toInt - p.toInt).toNat ∧
        plan = (.length (.userdata o), answer)
          :: removePlan (.userdata o) b.toInt p.toInt removed copied ∧
        Obeys (Machine.host call) (Request.byHook call) m
          (fun host => host.remove (.userdata o) position) plan (some removed) ∧
        Unspoilt plan) ∧
    ∀ o' : UserdataId, KeepsHooks call P o' →
      ∀ (m : Machine) (r : MoveRange) (target : Option Value),
        P m → target.getD (.userdata o) = .userdata o' → ¬r.isEmpty = true → r.fault? = none →
        ∃ copied plan, copied.length = r.count.toNat ∧
          plan = copyPlan (.userdata o) (.userdata o') (movePairs r o o') copied ∧
          Obeys (Machine.host call) (Request.byHook call) m
            (fun host => host.move (.userdata o) r target) plan (.userdata o') ∧
          Unspoilt plan := by
  exact ⟨fun _ _ _ _ v hm hb hfits hp hlow hhigh => called_insert ho hm hb hfits hp hlow hhigh v,
    fun _ _ _ _ hm hb hfits hp hin => called_remove ho hm hb hfits hp hin,
    fun _ ho' _ _ _ hm htarget hne hfault => called_move ho ho' hm htarget hne hfault⟩

/-- An object that says its length is three and has the same value everywhere, but cannot be
written. -/
def unwritable : Machine where
  heap := {
    tables := ⟨#[{}, ((({} : Table).setString indexHook (.function ⟨0⟩)).setString newIndexHook
      (.function ⟨1⟩)).setString lengthHook (.function ⟨2⟩)]⟩
    functions := ⟨#[⟨"seven", .script [.mk (.finish [.single (.value (.integer 7))]) none]⟩,
      ⟨"refuse", .script [.mk (.raise (.raised .type "read only") []) none]⟩,
      ⟨"three", .script [.mk (.finish [.single (.value (.integer 3))]) none]⟩]⟩
    userdata := ⟨#[⟨some ⟨1⟩⟩]⟩ }
  globals := ⟨0⟩
  limits := {}

theorem keepsHooks_unwritable : KeepsHooks EvalM.call (· = unwritable) ⟨0⟩ where
  links m hm := by
    subst hm
    decide
  hooks m hm := by
    subst hm
    exact ⟨⟨⟨0⟩, rfl⟩, ⟨⟨1⟩, rfl⟩, ⟨⟨2⟩, rfl⟩⟩
  keeps r hr m hm := by
    subst hm
    cases r with
    | length object =>
      obtain rfl : object = .userdata ⟨0⟩ := hr
      rfl
    | index object key =>
      obtain rfl : object = .userdata ⟨0⟩ := hr
      rfl
    | setIndex object key v =>
      obtain rfl : object = .userdata ⟨0⟩ := hr
      rfl
    | lessThan a b => exact hr.elim
    | call callee arguments => exact hr.elim

/-- each operation is cut short at its first write -/
theorem hooks_called_unwritable :
    KeepsHooks EvalM.call (· = unwritable) ⟨0⟩ ∧ Measures EvalM.call ⟨0⟩ unwritable 3 ∧
    (∃ answer copied plan, Value.asLength? answer = some 3 ∧ copied.length = 2 ∧
      plan = (.length (.userdata ⟨0⟩), answer) :: insertPlan (.userdata ⟨0⟩) 4 2 .nil copied ∧
      Obeys (Machine.host EvalM.call) (Request.byHook EvalM.call) unwritable
        (fun host => host.insert (.userdata ⟨0⟩) (some 2) .nil) plan () ∧
      Unspoilt plan) ∧
    (∃ answer removed copied plan, Value.asLength? answer = some 3 ∧ copied.length = 2 ∧
      plan = (.length (.userdata ⟨0⟩), answer) :: removePlan (.userdata ⟨0⟩) 3 1 removed copied ∧
      Obeys (Machine.host EvalM.call) (Request.byHook EvalM.call) unwritable
        (fun host => host.remove (.userdata ⟨0⟩) (some 1)) plan (some removed) ∧
      Unspoilt plan) ∧
    ∃ copied plan, copied.length = 3 ∧
      plan = copyPlan (.userdata ⟨0⟩) (.userdata ⟨0⟩) [(3, 4), (2, 3), (1, 2)] copied ∧
      Obeys (Machine.host EvalM.call) (Request.byHook EvalM.call) unwritable
        (fun host => host.move (.userdata ⟨0⟩) ⟨1, 3, 2⟩ none) plan (.userdata ⟨0⟩) ∧
      Unspoilt plan := by
  have hmeasures : Measures EvalM.call ⟨0⟩ unwritable 3 := by
    intro answer t hrun
    have hthree : ((Request.length (.userdata ⟨0⟩)).byHook EvalM.call).run unwritable
        = .ok (.integer 3) unwritable := rfl
    rw [hthree] at hrun
    cases hrun
    rfl
  obtain ⟨hinsert, hremove, hmove⟩ := hooks_called EvalM.call keepsHooks_unwritable
  exact ⟨keepsHooks_unwritable, hmeasures,
    hinsert unwritable 3 (some 2) 2 .nil rfl hmeasures (by decide) rfl (by decide) (by decide),
    hremove unwritable 3 (some 1) 1 rfl hmeasures (by decide) rfl (Or.inr (by decide)),
    hmove ⟨0⟩ keepsHooks_unwritable unwritable ⟨1, 3, 2⟩ none rfl rfl (by decide) (by decide)⟩

end ScriptTables
