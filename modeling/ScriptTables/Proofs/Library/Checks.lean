import ScriptTables.Library.Collection
import ScriptTables.Proofs.Action

/-!
# The check of a collection

Whether an argument passes as a collection is found by looking at its metatable and at fields of that,
and at nothing else; so what those looks keep is kept, on any host.

* `ends_holdsHooks`        the fields;
* `ends_checkCollection`   the whole check; what passed is the argument itself;
* `ends_lengthOf`          the length that an answer denotes, if any.
-/

namespace ScriptTables

section
variable {σ : Type} {host : Host σ} {P : σ → Prop} {E : Error → σ → Prop}

theorem ends_holdsHooks (hfield : ∀ id name, Ends P (host.field id name) (fun _ => P) E)
    (metatable : TableId) (hooks : List String) :
    Ends P (host.holdsHooks metatable hooks) (fun _ => P) E := by
  induction hooks with
  | nil => exact Ends.pure fun _ hs => hs
  | cons hook hooks ih =>
    refine Ends.bind (hfield metatable hook) fun handler => ?_
    split
    · exact Ends.pure fun _ hs => hs
    · exact ih

theorem ends_checkCollection (hmetatable : ∀ v, Ends P (host.metatable? v) (fun _ => P) E)
    (hfield : ∀ id name, Ends P (host.field id name) (fun _ => P) E) (v : Option Value)
    (position : Nat) (function : String) (required : Capabilities)
    (hrefusal : ∀ s, P s →
      E ⟨.wrongType position function "table" (v.map Value.typeName), []⟩ s) :
    Ends P (host.checkCollection v position function required) (fun c s => v = some c.value ∧ P s)
      E := by
  unfold Host.checkCollection
  split
  · exact Ends.fail hrefusal
  · exact Ends.pure fun _ hs => ⟨rfl, hs⟩
  · rename_i other _
    refine Ends.bind (hmetatable other) fun metatable => ?_
    cases metatable with
    | none => exact Ends.fail hrefusal
    | some metatable =>
      refine Ends.bind (ends_holdsHooks hfield metatable _) fun holds => ?_
      cases holds
      · exact Ends.fail hrefusal
      · exact Ends.pure fun _ hs => ⟨rfl, hs⟩

theorem ends_lengthOf (hrefusal : ∀ s, P s → E ⟨.lengthNotInteger, []⟩ s) (answer : Value) :
    Ends P (Collection.lengthOf answer) (fun _ => P) E := by
  unfold Collection.lengthOf
  split
  · exact Ends.pure fun _ hs => hs
  · split
    · exact Ends.pure fun _ hs => hs
    · exact Ends.fail hrefusal
  · exact Ends.fail hrefusal

end

end ScriptTables
