import Mathlib.Data.List.Forall2
import ScriptTables.Proofs.InStep

/-!
# Traces

What inputs do to a state, one after the other: what comes out of each, and the state behind it.  An
action that fails ends its own step only.

* `attempt`          an action run to its end: result or error, and the state;
* `trace`            all steps of a run;
* `trace_forall₂`    runs that stay related, by what one step preserves.
-/

namespace ScriptTables

section
variable {σ τ α β ι ω υ : Type}

/-- an action run to its end -/
def attempt (x : Action σ α) (s : σ) : Except Error α × σ :=
  match x.run s with
  | .ok a t => (.ok a, t)
  | .error e t => (.error e, t)

theorem attempt_of_ok {x : Action σ α} {s t : σ} {a : α} (h : x.run s = .ok a t) :
    attempt x s = (.ok a, t) := by
  rw [attempt, h]

theorem attempt_of_error {x : Action σ α} {s t : σ} {e : Error} (h : x.run s = .error e t) :
    attempt x s = (.error e, t) := by
  rw [attempt, h]

theorem attempt_snd (x : Action σ α) (s : σ) : (attempt x s).2 = finalState (x.run s) := by
  unfold attempt
  cases x.run s <;> rfl

theorem Ends.attempt {P R : σ → Prop} {x : Action σ α} {o : Except Error α}
    (h : Ends P x (fun a t => o = .ok a ∧ R t) (fun e t => o = .error e ∧ R t)) {s : σ} (hs : P s) :
    o = (attempt x s).1 ∧ R (attempt x s).2 := by
  have hends := h s hs
  cases hrun : x.run s with
  | ok a t =>
    rw [hrun] at hends
    rw [attempt_of_ok hrun]
    exact hends
  | error e t =>
    rw [hrun] at hends
    rw [attempt_of_error hrun]
    exact hends

def SameOutcome (V : α → β → Prop) : Except Error α → Except Error β → Prop
  | .ok a, .ok b => V a b
  | .error e, .error f => e = f
  | _, _ => False

theorem InStep.attempt {R : σ → τ → Prop} {V : α → β → Prop} {x : Action σ α} {y : Action τ β}
    (h : InStep R V x y) {s : σ} {t : τ} (hst : R s t) :
    SameOutcome V (attempt x s).1 (attempt y t).1 ∧ R (attempt x s).2 (attempt y t).2 := by
  rcases h.run hst with ⟨a, s', b, t', hx, hy, hab, hst'⟩ | ⟨e, s', t', hx, hy, hst'⟩
  · rw [attempt_of_ok hx, attempt_of_ok hy]
    exact ⟨hab, hst'⟩
  · rw [attempt_of_error hx, attempt_of_error hy]
    exact ⟨rfl, hst'⟩

/-- all steps of a run: what came out, and the state behind the step -/
def trace (step : ι → σ → ω × σ) : List ι → σ → List (ω × σ)
  | [], _ => []
  | i :: is, s => step i s :: trace step is (step i s).2

/-- Two runs stay related when each step relates what comes out of it and keeps the states related.
The relation `R` may look at the inputs that are still to come, `P` is what it says without them. -/
theorem trace_forall₂ {f : ι → σ → ω × σ} {g : ι → τ → υ × τ} {R : List ι → σ → τ → Prop}
    {P : σ → τ → Prop} {Q : ω → υ → Prop}
    (hstep : ∀ i is s t, R (i :: is) s t → Q (f i s).1 (g i t).1 ∧ R is (f i s).2 (g i t).2)
    (hstate : ∀ is s t, R is s t → P s t) (is : List ι) : ∀ s t, R is s t →
      List.Forall₂ (fun x y => Q x.1 y.1 ∧ P x.2 y.2) (trace f is s) (trace g is t) := by
  induction is with
  | nil => exact fun s t _ => List.Forall₂.nil
  | cons i is ih =>
    intro s t hst
    obtain ⟨hout, hnext⟩ := hstep i is s t hst
    exact List.Forall₂.cons ⟨hout, hstate is _ _ hnext⟩ (ih _ _ hnext)

end

end ScriptTables
