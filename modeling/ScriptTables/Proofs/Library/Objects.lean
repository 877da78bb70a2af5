import ScriptTables.Library.Collection
import ScriptTables.Proofs.Action
import ScriptTables.Proofs.Machine.Chain
import ScriptTables.Proofs.Machine.Links

/-!
# Opaque objects with hooks

An opaque object is nothing but its metatable.  Where that holds functions as hooks an access to the
object is one call of the hook, and the object passes as a collection on any host that finds the
hooks there.

* `EvalM.index_userdata`, `setIndex_userdata`, `length_userdata`   accesses to it;
* `Heap.Hooks`                 an object with functions as hooks;
* `checkCollection_of_field`   the check of a value that is no table;
* `checkCollection_userdata`   the check of an object with hooks;
* `Value.asLength?`            the length that an answer denotes.
-/

namespace ScriptTables

/-! ## accesses -/

section
variable {m : Machine} {o : UserdataId} {f : FunctionId}

namespace EvalM

variable (call : Caller)

theorem index_userdata (hf : m.heap.metamethod (.userdata o) indexHook = .function f)
    (hlinks : m.limits.maxMetaChain ≠ 0) (key : Value) :
    (index call (.userdata o) key).run m
      = (callFirst call (.function f) [.userdata o, key]).run m := by
  show (indexFrom call key m.limits.maxMetaChain (.userdata o)).run m = _
  obtain ⟨links, hmax⟩ := Nat.exists_eq_succ_of_ne_zero hlinks
  rw [hmax, indexFrom_succ_run, Heap.readLink_of_handler rfl hf Value.noConfusion]

theorem setIndex_userdata (hf : m.heap.metamethod (.userdata o) newIndexHook = .function f)
    (hlinks : m.limits.maxMetaChain ≠ 0) (key v : Value) :
    (setIndex call (.userdata o) key v).run m
      = (do let _ ← call (.function f) [.userdata o, key, v]; pure () : EvalM Unit).run m := by
  show (setIndexFrom call key v m.limits.maxMetaChain (.userdata o)).run m = _
  obtain ⟨links, hmax⟩ := Nat.exists_eq_succ_of_ne_zero hlinks
  rw [hmax, setIndexFrom_succ_run, Heap.writeLink_of_handler rfl hf Value.noConfusion]

theorem length_userdata (hf : m.heap.metamethod (.userdata o) lengthHook = .function f) :
    (length call (.userdata o)).run m = (callFirst call (.function f) [.userdata o]).run m := by
  rw [length, run_bind]
  show (if (m.heap.metamethod (.userdata o) lengthHook).isNil = true then _
    else callFirst call (m.heap.metamethod (.userdata o) lengthHook) [.userdata o]
      : EvalM Value).run m = _
  rw [hf]
  rfl

end EvalM

end

/-! ## the object as a collection -/

/-- the metatable of an object holds functions as its hooks -/
structure Heap.Hooks (h : Heap) (o : UserdataId) : Prop where
  index : ∃ f, h.metamethod (.userdata o) indexHook = .function f
  newIndex : ∃ f, h.metamethod (.userdata o) newIndexHook = .function f
  length : ∃ f, h.metamethod (.userdata o) lengthHook = .function f

theorem Heap.Hooks.exists_metatable {h : Heap} {o : UserdataId} (ho : h.Hooks o) :
    ∃ id, h.metatable? (.userdata o) = some id := by
  obtain ⟨f, hf⟩ := ho.index
  cases hid : h.metatable? (.userdata o) with
  | some id => exact ⟨id, rfl⟩
  | none =>
    rw [Heap.metamethod_of_none hid] at hf
    cases hf

theorem Heap.Hooks.held {h : Heap} {o : UserdataId} (ho : h.Hooks o) {id : TableId}
    (hid : h.metatable? (.userdata o) = some id) :
    ∀ hook ∈ [indexHook, newIndexHook, lengthHook], (h.table id).getString hook ≠ .nil := by
  intro hook hmem
  have hhook : h.metamethod (.userdata o) hook = (h.table id).getString hook := by
    rw [Heap.metamethod, hid]
  have hfunction : ∃ f, h.metamethod (.userdata o) hook = .function f := by
    simp only [List.mem_cons, List.not_mem_nil, or_false] at hmem
    rcases hmem with rfl | rfl | rfl
    · exact ho.index
    · exact ho.newIndex
    · exact ho.length
  obtain ⟨f, hf⟩ := hfunction
  rw [← hhook, hf]
  intro hnil
  cases hnil

theorem Capabilities.mem_hooks (required : Capabilities) :
    ∀ hook ∈ required.hooks, hook ∈ [indexHook, newIndexHook, lengthHook] := by
  obtain ⟨r, w, l⟩ := required
  cases r <;> cases w <;> cases l <;> decide

section
variable {σ : Type} {host : Host σ} {s : σ} {o : UserdataId} {metatable : TableId}
  {handler : String → Value}

theorem holdsHooks_of_field
    (hfield : ∀ hook, (host.field metatable hook).run s = .ok (handler hook) s) :
    ∀ hooks : List String, (host.holdsHooks metatable hooks).run s
      = .ok (hooks.all fun hook => !(handler hook).isNil) s := by
  intro hooks
  induction hooks with
  | nil => rfl
  | cons hook hooks ih =>
    rw [Host.holdsHooks, run_bind_of_ok (hfield hook), List.all_cons]
    cases (handler hook).isNil with
    | true => rfl
    | false => exact ih

theorem checkCollection_of_field {v : Value} (hv : ∀ id, v ≠ .table id)
    (hmetatable : (host.metatable? v).run s = .ok (some metatable) s)
    (hfield : ∀ hook, (host.field metatable hook).run s = .ok (handler hook) s) (position : Nat)
    (function : String) (required : Capabilities) :
    (host.checkCollection (some v) position function required).run s
      = if required.closed.hooks.all fun hook => !(handler hook).isNil
        then .ok (.protocol v metatable) s
        else .error ⟨.wrongType position function "table" (some v.typeName), []⟩ s := by
  have hrun : (host.checkCollection (some v) position function required).run s
      = (do
        if ← host.holdsHooks metatable required.closed.hooks then
          pure (.protocol v metatable)
        else fail (.wrongType position function "table" (some v.typeName))
        : Action σ Collection).run s := by
    cases v with
    | table id => exact absurd rfl (hv id)
    | _ =>
      unfold Host.checkCollection
      dsimp only
      rw [run_bind_of_ok hmetatable]
  rw [hrun, run_bind_of_ok (holdsHooks_of_field hfield _)]
  split <;> rfl

theorem checkCollection_userdata
    (hmetatable : (host.metatable? (.userdata o)).run s = .ok (some metatable) s)
    (hfield : ∀ hook, (host.field metatable hook).run s = .ok (handler hook) s)
    (hheld : ∀ hook ∈ [indexHook, newIndexHook, lengthHook], handler hook ≠ .nil) (position : Nat)
    (function : String) (required : Capabilities) :
    (host.checkCollection (some (.userdata o)) position function required).run s
      = .ok (.protocol (.userdata o) metatable) s := by
  rw [checkCollection_of_field (v := .userdata o) nofun hmetatable hfield, if_pos]
  refine List.all_eq_true.mpr fun hook hmem => ?_
  rw [Value.isNil_eq_false_iff.mpr (hheld hook (required.closed.mem_hooks hook hmem))]
  rfl

end

/-! ## lengths -/

/-- the integer that an answer denotes as a length, if it does -/
def Value.asLength? : Value → Option Int64
  | .integer n => some n
  | .number x => x.toInteger?
  | _ => none

theorem lengthOf_eq {σ : Type} (v : Value) :
    (Collection.lengthOf v : Action σ Int64) = match v.asLength? with
      | some n => pure n
      | none => fail .lengthNotInteger := by
  cases v with
  | number x => cases hx : x.toInteger? <;> simp only [Collection.lengthOf, Value.asLength?, hx]
  | _ => rfl

end ScriptTables
