import ScriptTables.Proofs.Library.Matching
import ScriptTables.Proofs.Plain
import ScriptTables.Script.Report

/-!
# What lasts

Everything that runs changes the heap in a few ways only: a new object, a write into a table under a
key that some value names, a new metatable.  Beside the heap it changes the session and the count of
running calls.  What none of these makes false is true after any step of any script, also after one
that fails.

The accesses of the machine are told how to call values.  With two ways to call that agree where `P` is
true they agree there as well; with one way that keeps `P` this says that they keep it.

* `Heap.Change`        what happens to a heap at once;
* `Steady P`           no such change makes `P` false, and no change of the session;
* `Lasting P`          nor does any count of running calls;
* `Caller.Agree P`     two ways to call values that agree;
* `Steady.host`        the machine as a host, with either of them.
-/

namespace ScriptTables

inductive Heap.Change (h : Heap) : Heap → Prop
  | newTable (t : Table) : t.WellFormed → Change h (h.pushTable t)
  /-- a new table that is a copy of another -/
  | copyTable (id : TableId) : Change h (h.pushTable (h.table id))
  | newFunction (f : Function) : Change h (h.pushFunction f)
  | newUserdata (u : Userdata) : Change h (h.pushUserdata u)
  | write (id : TableId) (k : Key) (v : Value) : k.IsNormal → Change h (h.write id k v)
  | setMetatable (id : TableId) (metatable : Option TableId) :
      Change h (h.modifyTable id fun t => { t with metatable := metatable })
  | setUserdataMetatable (id : UserdataId) (metatable : Option TableId) :
      Change h (h.modifyUserdata id fun u => { u with metatable := metatable })

structure Steady (P : Machine → Prop) : Prop where
  heap : ∀ m h, m.heap.Change h → P m → P { m with heap := h }
  session : ∀ m s, P m → P { m with session := s }

structure Lasting (P : Machine → Prop) : Prop extends Steady P where
  depth : ∀ m d, P m → P { m with depth := d }

/-- two ways to call values agree where `P` is true, and keep it -/
def Caller.Agree (P : Machine → Prop) (call call' : Caller) : Prop :=
  ∀ callee arguments, ScriptTables.Agree P (call callee arguments) (call' callee arguments)

namespace Steady

section
variable {P : Machine → Prop} {α : Type}

/-! ## actions on the state -/

theorem modifyHeap (hP : Steady P) {f : Heap → Heap} (hf : ∀ h : Heap, h.Change (f h)) :
    Keeps P (EvalM.modifyHeap f) := Keeps.update fun m hm => hP.heap m _ (hf m.heap) hm

theorem modifySession (hP : Steady P) (f : Session → Session) : Keeps P (EvalM.modifySession f) :=
  Keeps.update fun m hm => hP.session m _ hm

theorem newTable (hP : Steady P) {t : Table} (ht : t.WellFormed) : Keeps P (EvalM.newTable t) := by
  refine (Keeps.observe _).bind fun id => ?_
  exact (hP.modifyHeap fun h => .newTable t ht).bind fun _ => Keeps.pure id

theorem newFunction (hP : Steady P) (f : Function) : Keeps P (EvalM.newFunction f) := by
  refine (Keeps.observe _).bind fun id => ?_
  exact (hP.modifyHeap fun h => .newFunction f).bind fun _ => Keeps.pure id

theorem newUserdata (hP : Steady P) (u : Userdata) : Keeps P (EvalM.newUserdata u) := by
  refine (Keeps.observe _).bind fun id => ?_
  exact (hP.modifyHeap fun h => .newUserdata u).bind fun _ => Keeps.pure id

theorem rawSet (hP : Steady P) (id : TableId) (k v : Value) : Keeps P (EvalM.rawSet id k v) := by
  cases hk : Key.ofValue? k with
  | ok key =>
    rw [EvalM.rawSet_of_ok hk]
    exact hP.modifyHeap fun h => .write id key v (Key.isNormal_of_ofValue? hk)
  | error fault =>
    rw [EvalM.rawSet_of_error hk]
    exact Keeps.fail fault

theorem setMetatable (hP : Steady P) (v : Value) (metatable : Option TableId) :
    Keeps P (EvalM.setMetatable v metatable) := by
  unfold EvalM.setMetatable
  split
  · exact hP.modifyHeap fun h => .setMetatable _ metatable
  · exact hP.modifyHeap fun h => .setUserdataMetatable _ metatable
  · exact Keeps.fail _

theorem setGlobal (hP : Steady P) (name : String) (v : Value) :
    Keeps P (EvalM.setGlobal name v) :=
  Keeps.update fun m hm => hP.heap m _ (.write m.globals (.string name) v trivial) hm

theorem addFunctions (hP : Steady P) (fs : List LibraryFunction) : ∀ t : Table, t.WellFormed →
    Ends P (EvalM.addFunctions fs t) (fun t m => t.WellFormed ∧ P m) (fun _ => P) := by
  induction fs with
  | nil => exact fun t ht => Ends.pure fun m hm => ⟨ht, hm⟩
  | cons f fs ih =>
    intro t ht
    refine Ends.bind (hP.newFunction _) fun id => ?_
    exact ih _ (ht.setKey (k := .string f.name) trivial _)

theorem openLibrary (hP : Steady P) : Keeps P EvalM.openLibrary := by
  refine Ends.bind (hP.addFunctions _ _ Table.WellFormed.empty) fun t => ?_
  refine Ends.of_and fun ht => ?_
  refine (hP.newTable ht).bind fun id => ?_
  exact (hP.setGlobal _ _).bind fun _ => Keeps.pure id

/-! ## access -/

variable {call call' : Caller}

theorem callFirst (hcall : Caller.Agree P call call') (callee : Value) (arguments : List Value) :
    Agree P (EvalM.callFirst call callee arguments) (EvalM.callFirst call' callee arguments) :=
  (hcall callee arguments).bind_eq fun results => Agree.pure (firstOf results)

theorem indexFrom (hcall : Caller.Agree P call call') (key : Value) (links : Nat) :
    ∀ object, Agree P (EvalM.indexFrom call key links object)
      (EvalM.indexFrom call' key links object) := by
  induction links with
  | zero => exact fun object => InStep.fail _
  | succ links ih =>
    intro object
    refine (Agree.observe _).bind_eq fun link => ?_
    cases link with
    | stop v => exact Agree.pure v
    | refuse => exact InStep.fail _
    | follow handler =>
      cases handler with
      | function f => exact callFirst hcall _ _
      | _ => exact ih _

theorem index (hcall : Caller.Agree P call call') (object key : Value) :
    Agree P (EvalM.index call object key) (EvalM.index call' object key) :=
  (Agree.observe _).bind_eq fun links => indexFrom hcall key links object

theorem setIndexFrom (hP : Steady P) (hcall : Caller.Agree P call call') (key v : Value)
    (links : Nat) : ∀ object, Agree P (EvalM.setIndexFrom call key v links object)
      (EvalM.setIndexFrom call' key v links object) := by
  induction links with
  | zero => exact fun object => InStep.fail _
  | succ links ih =>
    intro object
    refine (Agree.observe _).bind_eq fun link => ?_
    cases link with
    | stop id => exact (hP.rawSet id key v).agree
    | refuse => exact InStep.fail _
    | follow handler =>
      cases handler with
      | function f => exact (hcall _ _).bind_eq fun _ => Agree.pure ()
      | _ => exact ih _

theorem setIndex (hP : Steady P) (hcall : Caller.Agree P call call') (object key v : Value) :
    Agree P (EvalM.setIndex call object key v) (EvalM.setIndex call' object key v) :=
  (Agree.observe _).bind_eq fun links => hP.setIndexFrom hcall key v links object

theorem length (hcall : Caller.Agree P call call') (v : Value) :
    Agree P (EvalM.length call v) (EvalM.length call' v) := by
  refine (Agree.observe _).bind_eq fun handler => ?_
  split
  · refine (Agree.observe _).bind_eq fun n => ?_
    cases n with
    | some n => exact Agree.pure _
    | none => exact InStep.fail _
  · exact callFirst hcall handler [v]

theorem lessThan (hcall : Caller.Agree P call call') (a b : Value) :
    Agree P (EvalM.lessThan call a b) (EvalM.lessThan call' a b) := by
  unfold EvalM.lessThan
  split
  · exact Agree.pure _
  · refine (Agree.observe _).bind_eq fun handler => ?_
    split
    · exact InStep.fail _
    · exact (callFirst hcall handler [a, b]).bind_eq fun v => Agree.pure v.isTruthy

theorem host (hP : Steady P) (hcall : Caller.Agree P call call') :
    (Machine.host call).Matching (Machine.host call') (Same P) where
  metatable? _ := Agree.observe _
  field _ _ := Agree.observe _
  border _ := Agree.observe _
  length := Steady.length hcall
  index := Steady.index hcall
  setIndex := hP.setIndex hcall
  lessThan := Steady.lessThan hcall
  call := callFirst hcall
  newTable _ ht := (hP.newTable ht).agree
  fits _ := Agree.observe _

end

end Steady

end ScriptTables
