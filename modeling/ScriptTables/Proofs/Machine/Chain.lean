import ScriptTables.Machine.Access

/-!
# Chains of metatables

An access goes along a chain of handlers: a link ends it, refuses it, hands it to a function, or passes
it on to the next link.  The limit on the links is there for chains that do not end.

* `EvalM.indexFrom_succ_run`, `setIndexFrom_succ_run`   what an access does at a link;
* `EvalM.indexFrom_add`, `setIndexFrom_add`             links beyond the limit are not looked at, so a
                                                        larger limit only lets go on what was given up;
* `EvalM.length_of_nil`, `lessThan_of_nil`              lengths and comparisons without hooks.
-/

namespace ScriptTables

namespace EvalM

section
variable (call : Caller) (key : Value) (m : Machine)

theorem indexFrom_succ_run (links : Nat) (object : Value) :
    (indexFrom call key (links + 1) object).run m = match m.heap.readLink object key with
      | .stop v => .ok v m
      | .refuse => .error ⟨.cannotIndex object.typeName, []⟩ m
      | .follow (.function f) => (callFirst call (.function f) [object, key]).run m
      | .follow handler => (indexFrom call key links handler).run m := by
  rw [indexFrom, run_bind]
  show (match m.heap.readLink object key with
    | .stop v => pure v
    | .refuse => fail (.cannotIndex object.typeName)
    | .follow (.function f) => callFirst call (.function f) [object, key]
    | .follow handler => indexFrom call key links handler : EvalM Value).run m = _
  cases m.heap.readLink object key with
  | stop v => rfl
  | refuse => rfl
  | follow handler => cases handler <;> rfl

theorem indexFrom_add (links more : Nat) :
    ∀ object, (indexFrom call key links object).run m = .error ⟨.readChainTooLong, []⟩ m ∨
      (indexFrom call key (links + more) object).run m
        = (indexFrom call key links object).run m := by
  induction links with
  | zero => exact fun object => Or.inl rfl
  | succ links ih =>
    intro object
    rw [Nat.add_right_comm, indexFrom_succ_run, indexFrom_succ_run]
    cases m.heap.readLink object key with
    | stop v => exact Or.inr rfl
    | refuse => exact Or.inr rfl
    | follow handler =>
      cases handler with
      | function f => exact Or.inr rfl
      | _ => exact ih _

variable (v : Value)

theorem setIndexFrom_succ_run (links : Nat) (object : Value) :
    (setIndexFrom call key v (links + 1) object).run m = match m.heap.writeLink object key with
      | .stop id => (rawSet id key v).run m
      | .refuse => .error ⟨.cannotIndex object.typeName, []⟩ m
      | .follow (.function f) =>
        (do let _ ← call (.function f) [object, key, v]; pure () : EvalM Unit).run m
      | .follow handler => (setIndexFrom call key v links handler).run m := by
  rw [setIndexFrom, run_bind]
  show (match m.heap.writeLink object key with
    | .stop id => rawSet id key v
    | .refuse => fail (.cannotIndex object.typeName)
    | .follow (.function f) => do
      let _ ← call (.function f) [object, key, v]
      pure ()
    | .follow handler => setIndexFrom call key v links handler : EvalM Unit).run m = _
  cases m.heap.writeLink object key with
  | stop id => rfl
  | refuse => rfl
  | follow handler => cases handler <;> rfl

/-- a value without a hook for it has its own length, if it has any -/
theorem length_of_nil {call : Caller} {m : Machine} {v : Value}
    (hhandler : m.heap.metamethod v lengthHook = .nil) :
    (length call v).run m = match m.heap.rawLength? v with
      | some n => .ok (.integer n) m
      | none => .error ⟨.cannotMeasure v.typeName, []⟩ m := by
  rw [length, run_bind]
  show (if (m.heap.metamethod v lengthHook).isNil = true then _
    else callFirst call (m.heap.metamethod v lengthHook) [v] : EvalM Value).run m = _
  rw [hhandler, if_pos (Value.isNil_iff.mpr rfl), run_bind]
  show (match m.heap.rawLength? v with
    | some n => pure (.integer n)
    | none => fail (.cannotMeasure v.typeName) : EvalM Value).run m = _
  cases m.heap.rawLength? v <;> rfl

theorem lessThan_of_nil {call : Caller} {m : Machine} {a b : Value}
    (hhandler : m.heap.lessHandler a b = .nil) :
    (lessThan call a b).run m = (a.less? b).elim
      (.error ⟨.cannotCompare a.typeName b.typeName, []⟩ m) (.ok · m) := by
  unfold lessThan
  cases a.less? b with
  | some less => rfl
  | none =>
    show (if (m.heap.lessHandler a b).isNil = true then fail _ else _ : EvalM Bool).run m = _
    rw [hhandler]
    rfl

end

end EvalM

end ScriptTables
