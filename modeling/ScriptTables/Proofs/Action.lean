import ScriptTables.Machine.Basic

/-!
# How actions end

An action succeeds with a result or fails with an error, and leaves a state behind either way.  Here
is what can be said about the end of an action, and how it follows from its parts.

* `finalState`        the state an action leaves behind;
* `Ends P x Q E`      from where `P` is true, `x` succeeds where `Q` is true or fails where `E` is;
* `Keeps P x`         `P` stays true, whether `x` succeeds or fails;
* `Alike R E V x y`   two actions on related states succeed both, with results related by `V` and the
                      states still related by `R`, or fail both as `E` tells.
-/

namespace ScriptTables

section
variable {σ τ α β γ δ : Type}

def finalState : EStateM.Result Error σ α → σ
  | .ok _ s => s
  | .error _ s => s

/-! ## one action -/

def Ends (P : σ → Prop) (x : Action σ α) (Q : α → σ → Prop) (E : Error → σ → Prop) : Prop :=
  ∀ s, P s → match x.run s with
    | .ok a s' => Q a s'
    | .error e s' => E e s'

def Keeps (P : σ → Prop) (x : Action σ α) : Prop := Ends P x (fun _ => P) (fun _ => P)

section
variable {P P' : σ → Prop} {x : Action σ α} {M : β → σ → Prop} {Q Q' : α → σ → Prop}
  {E E' : Error → σ → Prop}

theorem Ends.pure {a : α} (h : ∀ s, P s → Q a s) : Ends P (pure a : Action σ α) Q E := h

theorem Ends.fail {fault : Fault} (h : ∀ s, P s → E ⟨fault, []⟩ s) :
    Ends P (ScriptTables.fail fault : Action σ α) Q E := h

theorem Ends.throw {e : Error} (h : ∀ s, P s → E e s) :
    Ends P (throw e : Action σ α) Q E := h

theorem Ends.observe {f : σ → α} (h : ∀ s, P s → Q (f s) s) :
    Ends P (ScriptTables.observe f) Q E := h

theorem Ends.update {f : σ → σ} {Q : Unit → σ → Prop} (h : ∀ s, P s → Q () (f s)) :
    Ends P (ScriptTables.update f) Q E := h

theorem Ends.bind {y : Action σ β} {k : β → Action σ α} (hy : Ends P y M E)
    (hk : ∀ b, Ends (M b) (k b) Q E) : Ends P (y >>= k) Q E := by
  intro s hs
  have h := hy s hs
  rw [run_bind]
  cases hr : y.run s with
  | ok b s' =>
    rw [hr] at h
    exact hk b s' h
  | error e s' =>
    rw [hr] at h
    exact h

theorem Ends.mono (h : Ends P x Q E) (hP : ∀ s, P' s → P s) (hQ : ∀ a s, Q a s → Q' a s)
    (hE : ∀ e s, E e s → E' e s) : Ends P' x Q' E' := by
  intro s hs
  have h := h s (hP s hs)
  cases hr : x.run s with
  | ok a s' =>
    rw [hr] at h
    exact hQ a s' h
  | error e s' =>
    rw [hr] at h
    exact hE e s' h

theorem Ends.tryCatch {handler : Error → Action σ α} (hx : Ends P x Q E')
    (hh : ∀ e, Ends (E' e) (handler e) Q E) : Ends P (tryCatch x handler) Q E := by
  intro s hs
  have h := hx s hs
  rw [run_tryCatch]
  cases hr : x.run s with
  | ok a s' =>
    rw [hr] at h
    exact h
  | error e s' =>
    rw [hr] at h
    exact hh e s' h

/-- what is true of the states from which an action runs, but does not depend on them -/
theorem Ends.of_and {p : Prop} (h : p → Ends P x Q E) : Ends (fun s => p ∧ P s) x Q E :=
  fun s hs => h hs.1 s hs.2

theorem Ends.of_always (hQ : ∀ a s, Q a s) (hE : ∀ e s, E e s) : Ends P x Q E := by
  intro s _
  cases x.run s with
  | ok a s' => exact hQ a s'
  | error e s' => exact hE e s'

theorem Ends.and (h : Ends P x Q E) (h' : Ends P' x Q' E') :
    Ends (fun s => P s ∧ P' s) x (fun a s => Q a s ∧ Q' a s) fun e s => E e s ∧ E' e s := by
  intro s hs
  have h := h s hs.1
  have h' := h' s hs.2
  cases hr : x.run s <;> rw [hr] at h h' <;> exact ⟨h, h'⟩

theorem Ends.of_run_eq {s : σ} {y : Action σ α} (h : Ends (· = s) y Q E)
    (hrun : x.run s = y.run s) : Ends (· = s) x Q E := by
  intro s' hs
  subst hs
  rw [hrun]
  exact h s' rfl

theorem Ends.finalState {s : σ} {R : σ → Prop} (h : Ends (· = s) x (fun _ => R) (fun _ => R)) :
    R (finalState (x.run s)) := by
  have h := h s rfl
  cases hr : x.run s <;> rw [hr] at h <;> exact h

theorem Ends.exists_ok {s : σ} (h : Ends P x Q fun _ _ => False) (hs : P s) :
    ∃ a s', x.run s = .ok a s' ∧ Q a s' := by
  have h := h s hs
  cases hr : x.run s with
  | ok a s' =>
    rw [hr] at h
    exact ⟨a, s', rfl, h⟩
  | error e s' =>
    rw [hr] at h
    exact h.elim

end

/-! ### what an action keeps -/

section
variable {P : σ → Prop} {x : Action σ α}

theorem keeps_iff : Keeps P x ↔ ∀ s, P s → P (finalState (x.run s)) := by
  refine forall₂_congr fun s _ => ?_
  cases x.run s <;> rfl

theorem Keeps.pure (a : α) : Keeps P (pure a : Action σ α) := Ends.pure fun _ hs => hs

theorem Keeps.fail (fault : Fault) : Keeps P (ScriptTables.fail fault : Action σ α) :=
  Ends.fail fun _ hs => hs

theorem Keeps.throw (e : Error) : Keeps P (throw e : Action σ α) := Ends.throw fun _ hs => hs

theorem Keeps.observe (f : σ → α) : Keeps P (ScriptTables.observe f) := Ends.observe fun _ hs => hs

theorem Keeps.update {f : σ → σ} (h : ∀ s, P s → P (f s)) : Keeps P (ScriptTables.update f) :=
  Ends.update h

theorem Keeps.bind {k : α → Action σ β} (hx : Keeps P x) (hk : ∀ a, Keeps P (k a)) :
    Keeps P (x >>= k) := Ends.bind hx hk

theorem Keeps.tryCatch {handler : Error → Action σ α} (hx : Keeps P x)
    (hh : ∀ e, Keeps P (handler e)) : Keeps P (tryCatch x handler) := Ends.tryCatch hx hh

end

/-! ## two actions -/

def Alike (R : σ → τ → Prop) (E : Error → Error → σ → τ → Prop) (V : α → β → Prop)
    (x : Action σ α) (y : Action τ β) : Prop :=
  ∀ s t, R s t → match x.run s, y.run t with
    | .ok a s', .ok b t' => V a b ∧ R s' t'
    | .error e s', .error f t' => E e f s' t'
    | _, _ => False

section
variable {R : σ → τ → Prop} {E : Error → Error → σ → τ → Prop} {V : α → β → Prop}
  {W : γ → δ → Prop} {x : Action σ α} {y : Action τ β}

theorem Alike.pure {a : α} {b : β} (h : V a b) :
    Alike R E V (pure a : Action σ α) (pure b : Action τ β) := fun _ _ hst => ⟨h, hst⟩

theorem Alike.bind {k : α → Action σ γ} {l : β → Action τ δ} (h : Alike R E V x y)
    (hk : ∀ a b, V a b → Alike R E W (k a) (l b)) : Alike R E W (x >>= k) (y >>= l) := by
  intro s t hst
  have h := h s t hst
  rw [run_bind, run_bind]
  cases hx : x.run s <;> cases hy : y.run t <;> rw [hx, hy] at h
  case ok.ok a s' b t' => exact hk a b h.1 s' t' h.2
  case error.error => exact h
  case ok.error => exact h.elim
  case error.ok => exact h.elim

theorem Alike.bind_same {y : Action τ α} {M : α → Prop} {k : α → Action σ γ} {l : α → Action τ δ}
    (h : Alike R E (fun a b => a = b ∧ M a) x y) (hk : ∀ a, M a → Alike R E W (k a) (l a)) :
    Alike R E W (x >>= k) (y >>= l) := by
  refine h.bind fun a b hab => ?_
  obtain ⟨rfl, ha⟩ := hab
  exact hk a ha

theorem Alike.bind_eq {y : Action τ α} {k : α → Action σ γ} {l : α → Action τ δ}
    (h : Alike R E (· = ·) x y) (hk : ∀ a, Alike R E W (k a) (l a)) :
    Alike R E W (x >>= k) (y >>= l) := by
  refine h.bind fun a b hab => ?_
  subst hab
  exact hk a

theorem Alike.mono {U : α → β → Prop} (h : Alike R E V x y) (hV : ∀ a b, V a b → U a b) :
    Alike R E U x y := by
  intro s t hst
  have h := h s t hst
  cases hx : x.run s <;> cases hy : y.run t <;> rw [hx, hy] at h
  case ok.ok => exact ⟨hV _ _ h.1, h.2⟩
  case error.error => exact h
  case ok.error => exact h.elim
  case error.ok => exact h.elim

theorem Alike.ite {b : Bool} {x' : Action σ α} {y' : Action τ β} (h : Alike R E V x y)
    (h' : Alike R E V x' y') :
    Alike R E V (if b = true then x else x') (if b = true then y else y') := by
  cases b
  · exact h'
  · exact h

end

/-- what an action keeps true, as a relation between a run and itself -/
theorem alike_self {P : σ → Prop} {E : Error → σ → Prop} {V : α → Prop} {x : Action σ α} :
    Alike (fun s t => s = t ∧ P s) (fun e _ s _ => E e s) (fun a b => a = b ∧ V a) x x
      ↔ Ends P x (fun a s => V a ∧ P s) E := by
  constructor
  · intro h s hs
    have h := h s s ⟨rfl, hs⟩
    cases hr : x.run s <;> rw [hr] at h
    case ok => exact ⟨h.1.2, h.2.2⟩
    case error => exact h
  · intro h s t hst
    obtain ⟨rfl, hs⟩ := hst
    have h := h s hs
    cases hr : x.run s <;> rw [hr] at h
    case ok => exact ⟨⟨rfl, h.1⟩, rfl, h.2⟩
    case error => exact h

end

end ScriptTables
