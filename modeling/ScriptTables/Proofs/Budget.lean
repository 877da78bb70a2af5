import ScriptTables.Proofs.Action

/-!
# Budgets

How much an action spends of something that its state counts, say of requests to a host.  What is left
of a budget may depend on the result: a scan that stops early leaves more to what comes after it.

* `Spends spent n x M left`   of `n`, the action `x` leaves `left a` when its result is `a`, which has
                              `M`; when it fails it has spent no more than `n`;
* `Takes spent n x`           it spends no more than `n`, whatever its result;
* `Spends.bind`, `Spends.more`   the rest is spent by what goes on; a larger budget leaves more.
-/

namespace ScriptTables

section
variable {σ α β : Type} {spent : σ → Nat}

def Spends (spent : σ → Nat) (n : Nat) (x : Action σ α) (M : α → Prop) (left : α → Nat) : Prop :=
  ∀ s, match x.run s with
    | .ok a s' => M a ∧ spent s' + left a ≤ spent s + n
    | .error _ s' => spent s' ≤ spent s + n

def Takes (spent : σ → Nat) (n : Nat) (x : Action σ α) : Prop :=
  Spends spent n x (fun _ => True) fun _ => 0

section
variable {n : Nat} {x : Action σ α} {M : α → Prop} {left : α → Nat}

theorem Spends.pure {a : α} (hM : M a) (h : left a ≤ n) :
    Spends spent n (pure a : Action σ α) M left := by
  intro s
  exact ⟨hM, Nat.add_le_add_left h _⟩

theorem Spends.fail (fault : Fault) : Spends spent n (ScriptTables.fail fault : Action σ α) M left :=
  fun s => Nat.le_add_right (spent s) n

theorem Spends.bind {k : α → Action σ β} {M' : β → Prop} {left' : β → Nat}
    (hx : Spends spent n x M left) (hk : ∀ a, M a → Spends spent (left a) (k a) M' left') :
    Spends spent n (x >>= k) M' left' := by
  intro s
  have hx := hx s
  rw [run_bind]
  cases hr : x.run s with
  | error e s' =>
    rw [hr] at hx
    exact hx
  | ok a s' =>
    rw [hr] at hx
    obtain ⟨ha, hs'⟩ := hx
    have hk := hk a ha s'
    show match (k a).run s' with
      | .ok b s'' => _
      | .error _ s'' => _
    cases hr' : (k a).run s' with
    | ok b s'' =>
      rw [hr'] at hk
      exact ⟨hk.1, by omega⟩
    | error e s'' =>
      rw [hr'] at hk
      show spent s'' ≤ spent s + n
      have hk : spent s'' ≤ spent s' + left a := hk
      omega

theorem Spends.more {N : Nat} {left' : α → Nat} (h : Spends spent n x M left) (hn : n ≤ N)
    (hleft : ∀ a, M a → left' a ≤ left a + (N - n)) : Spends spent N x M left' := by
  intro s
  have h := h s
  cases hr : x.run s with
  | ok a s' =>
    rw [hr] at h
    have hleft := hleft a h.1
    have hspent := h.2
    exact ⟨h.1, by omega⟩
  | error e s' =>
    rw [hr] at h
    have h : spent s' ≤ spent s + n := h
    exact Nat.le_trans h (by omega)

theorem Spends.mono {M' : α → Prop} {left' : α → Nat} (h : Spends spent n x M left)
    (hM : ∀ a, M a → M' a ∧ left' a ≤ left a) : Spends spent n x M' left' := by
  intro s
  have h := h s
  cases hr : x.run s with
  | ok a s' =>
    rw [hr] at h
    obtain ⟨hM', hleft⟩ := hM a h.1
    have hspent := h.2
    exact ⟨hM', by omega⟩
  | error e s' =>
    rw [hr] at h
    exact h

theorem Spends.ite {b : Bool} {y : Action σ α} (hx : Spends spent n x M left)
    (hy : Spends spent n y M left) : Spends spent n (if b = true then x else y) M left := by
  cases b
  · exact hy
  · exact hx

end

/-! ## whatever the result -/

section
variable {n k : Nat} {x : Action σ α}

theorem Takes.pure (a : α) : Takes spent n (Pure.pure a : Action σ α) :=
  Spends.pure trivial (Nat.zero_le n)

theorem Takes.fail (fault : Fault) : Takes spent n (ScriptTables.fail fault : Action σ α) :=
  Spends.fail fault

theorem Takes.le {N : Nat} (h : Takes spent n x) (hn : n ≤ N) : Takes spent N x :=
  Spends.more h hn fun _ _ => Nat.zero_le _

theorem Takes.spends_bind {N : Nat} {k : α → Action σ β} {M : β → Prop} {left : β → Nat}
    (hx : Takes spent n x) (hn : n ≤ N) (hk : ∀ a, Spends spent (N - n) (k a) M left) :
    Spends spent N (x >>= k) M left := by
  have hx : Spends spent N x (fun _ => True) fun _ => N - n :=
    Spends.more hx hn fun _ _ => Nat.le_add_left _ _
  exact Spends.bind hx fun a _ => hk a

theorem Takes.bind {N : Nat} {k : α → Action σ β} (hx : Takes spent n x) (hn : n ≤ N)
    (hk : ∀ a, Takes spent (N - n) (k a)) : Takes spent N (x >>= k) :=
  Takes.spends_bind hx hn hk

theorem Takes.ite {b : Bool} {y : Action σ α} (hx : Takes spent n x) (hy : Takes spent n y) :
    Takes spent n (if b = true then x else y) := Spends.ite hx hy

theorem takes_iff : Takes spent n x ↔ ∀ s, spent (finalState (x.run s)) ≤ spent s + n := by
  refine forall_congr' fun s => ?_
  cases x.run s with
  | ok a s' => exact ⟨fun h => h.2, fun h => ⟨trivial, h⟩⟩
  | error e s' => exact Iff.rfl

theorem Takes.rethrow (hx : Takes spent n x) (f : Error → Error) :
    Takes spent n (tryCatch x fun e => throw (f e)) := by
  refine takes_iff.mpr fun s => ?_
  have h := takes_iff.mp hx s
  rw [run_tryCatch]
  cases hr : x.run s <;> rw [hr] at h <;> exact h

end

end

end ScriptTables
