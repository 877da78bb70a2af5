import ScriptTables.Proofs.Action

/-!
# Actions in step

Two actions are in step when, from related states, they succeed both with related results or fail
both with the same error, and leave related states behind in either case.

* `InStep R V x y`   in step, with results related by `V`;
* `Agree P x y`      in step on equal states of which `P` is true, so that the two actions are one
                     there, and keep `P`;
* `agree_iff`        the same as an equation between runs;
* `Keeps.agree`      what an action keeps, as agreement with itself.
-/

namespace ScriptTables

section
variable {σ τ α β γ δ : Type}

/-- the same error, and states that are still related -/
def SameError (R : σ → τ → Prop) (e f : Error) (s : σ) (t : τ) : Prop := e = f ∧ R s t

abbrev InStep (R : σ → τ → Prop) (V : α → β → Prop) (x : Action σ α) (y : Action τ β) : Prop :=
  Alike R (SameError R) V x y

section
variable {R : σ → τ → Prop} {V : α → β → Prop} {x : Action σ α} {y : Action τ β}

theorem InStep.throw (e : Error) : InStep R V (throw e : Action σ α) (throw e : Action τ β) :=
  fun _ _ hst => ⟨rfl, hst⟩

theorem InStep.fail (fault : Fault) :
    InStep R V (ScriptTables.fail fault : Action σ α) (ScriptTables.fail fault : Action τ β) :=
  InStep.throw ⟨fault, []⟩

theorem InStep.observe {f : σ → α} {g : τ → β} (h : ∀ s t, R s t → V (f s) (g t)) :
    InStep R V (ScriptTables.observe f) (ScriptTables.observe g) :=
  fun s t hst => ⟨h s t hst, hst⟩

theorem InStep.tryCatch {handler : Error → Action σ α} {handler' : Error → Action τ β}
    (h : InStep R V x y) (hh : ∀ e, InStep R V (handler e) (handler' e)) :
    InStep R V (tryCatch x handler) (tryCatch y handler') := by
  intro s t hst
  have h := h s t hst
  rw [run_tryCatch, run_tryCatch]
  cases hx : x.run s <;> cases hy : y.run t <;> rw [hx, hy] at h
  case ok.ok => exact h
  case error.error e s' f t' =>
    obtain ⟨rfl, hst'⟩ := h
    exact hh e s' t' hst'
  case ok.error => exact h.elim
  case error.ok => exact h.elim

theorem InStep.ite {p : Prop} [Decidable p] {x' : Action σ α} {y' : Action τ β}
    (h : p → InStep R V x y) (h' : ¬p → InStep R V x' y') :
    InStep R V (if p then x else x') (if p then y else y') := by
  by_cases hp : p
  · rw [if_pos hp, if_pos hp]
    exact h hp
  · rw [if_neg hp, if_neg hp]
    exact h' hp

theorem InStep.run (h : InStep R V x y) {s : σ} {t : τ} (hst : R s t) :
    (∃ a s' b t', x.run s = .ok a s' ∧ y.run t = .ok b t' ∧ V a b ∧ R s' t') ∨
      ∃ e s' t', x.run s = .error e s' ∧ y.run t = .error e t' ∧ R s' t' := by
  have h := h s t hst
  cases hx : x.run s <;> cases hy : y.run t <;> rw [hx, hy] at h
  case ok.ok a s' b t' => exact Or.inl ⟨a, s', b, t', rfl, rfl, h⟩
  case error.error e s' f t' =>
    obtain ⟨rfl, hst'⟩ := h
    exact Or.inr ⟨e, s', t', rfl, rfl, hst'⟩
  case ok.error => exact h.elim
  case error.ok => exact h.elim

end

/-! ## agreement -/

/-- the relation of a state to itself, where `P` is true -/
def Same (P : σ → Prop) (s t : σ) : Prop := s = t ∧ P s

abbrev Agree (P : σ → Prop) (x y : Action σ α) : Prop := InStep (Same P) (· = ·) x y

section
variable {P : σ → Prop} {x y : Action σ α}

theorem agree_iff :
    Agree P x y ↔ ∀ s, P s → x.run s = y.run s ∧ P (finalState (x.run s)) := by
  constructor
  · intro h s hs
    have h := h s s ⟨rfl, hs⟩
    cases hx : x.run s <;> cases hy : y.run s <;> rw [hx, hy] at h
    case ok.ok =>
      obtain ⟨rfl, rfl, hs'⟩ := h
      exact ⟨rfl, hs'⟩
    case error.error =>
      obtain ⟨rfl, rfl, hs'⟩ := h
      exact ⟨rfl, hs'⟩
    case ok.error => exact h.elim
    case error.ok => exact h.elim
  · intro h s t hst
    obtain ⟨rfl, hs⟩ := hst
    obtain ⟨hxy, hs'⟩ := h s hs
    rw [← hxy]
    cases hx : x.run s <;> rw [hx] at hs'
    case ok => exact ⟨rfl, rfl, hs'⟩
    case error => exact ⟨rfl, rfl, hs'⟩

theorem Agree.keeps (h : Agree P x x) : Keeps P x :=
  keeps_iff.mpr fun s hs => (agree_iff.mp h s hs).2

theorem Keeps.agree (h : Keeps P x) : Agree P x x :=
  agree_iff.mpr fun s hs => ⟨rfl, keeps_iff.mp h s hs⟩

theorem Agree.run_eq (h : Agree P x y) {s : σ} (hs : P s) : x.run s = y.run s :=
  (agree_iff.mp h s hs).1

theorem Agree.pure (a : α) : Agree P (pure a : Action σ α) (pure a) := Alike.pure rfl

theorem Agree.observe (f : σ → α) : Agree P (ScriptTables.observe f) (ScriptTables.observe f) :=
  (Keeps.observe f).agree

end

end

end ScriptTables
