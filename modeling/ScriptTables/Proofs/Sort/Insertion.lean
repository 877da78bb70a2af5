import ScriptTables.Proofs.Sort.Sortable

/-!
# Insertion sort puts a range in order

While a value sinks, the range is in order but for it, and it belongs before all that it has passed.

* `Slots.Sinking`                  that, as a property of the arrangement;
* `Slots.Sortable.insertionSort`   the range afterwards.
-/

namespace ScriptTables

namespace Slots

/-- the places `lo, ..., k` are in order but for the value at `m`, which belongs before those behind
it -/
structure Sinking (lt : Value → Value → Bool) (lo m k : Nat) (f : Nat → Value) : Prop where
  others : ∀ i j, lo ≤ i → i < j → j ≤ k → i ≠ m → j ≠ m → lt (f j) (f i) = false
  passed : ∀ j, m < j → j ≤ k → lt (f j) (f m) = false

section
variable {V : Value → Prop} {lt : Value → Value → Bool} {lo m k : Nat} {f : Nat → Value}

theorem Sinking.of_ordered (h : Ordered lt lo (k - 1) f) : Sinking lt lo k k f where
  others i j hi hij hj _ hjk := h i j hi hij (by omega)
  passed j hj hjk := absurd hjk (by omega)

theorem Sinking.step (h : Sinking lt lo m k f) (hm : lo < m) (hk : m ≤ k)
    (hpass : lt (f (m - 1)) (f m) = false) :
    Sinking lt lo (m - 1) k (exchanged f m (m - 1)) where
  others i j hi hij hj him hjm := by
    rw [exchanged]
    by_cases hjm' : j = m
    · rw [if_pos hjm', exchanged_of_ne f (by omega) him]
      exact h.others i (m - 1) hi (by omega) (by omega) (by omega) (by omega)
    · rw [if_neg hjm', if_neg hjm]
      by_cases him' : i = m
      · rw [him', exchanged_left]
        exact h.others (m - 1) j (by omega) (by omega) hj (by omega) hjm'
      · rw [exchanged_of_ne f him' him]
        exact h.others i j hi hij hj him' hjm'
  passed j hj hjk := by
    rw [exchanged_right]
    by_cases hjm : j = m
    · rw [hjm, exchanged_left]
      exact hpass
    · rw [exchanged_of_ne f hjm (by omega)]
      exact h.passed j (by omega) hjk

/-- a value that has come down to the first place, or to one whose value it does not belong before -/
theorem Sinking.ordered (h : Sinking lt lo m k f) (hlt : StrictWeak V lt)
    (hV : ∀ i, lo ≤ i → i ≤ k → V (f i)) (hm : lo ≤ m)
    (hstop : lo < m → lt (f m) (f (m - 1)) = false) : Ordered lt lo k f := by
  intro i j hi hij hj
  by_cases him : i = m
  · rw [him]
    exact h.passed j (by omega) hj
  · by_cases hjm : j = m
    · subst hjm
      by_cases hnext : i = j - 1
      · exact hnext ▸ hstop (by omega)
      · have hlow := h.others i (j - 1) hi (by omega) (by omega) him (by omega)
        exact hlt.not_lt_trans (hV i hi (by omega)) (hV (j - 1) (by omega) (by omega))
          (hV j (by omega) hj) hlow (hstop (by omega))
    · exact h.others i j hi hij hj him hjm

end

namespace Sortable

variable {σ : Type} {slots : Slots σ} {first n : Nat} {Shows : σ → (Nat → Value) → Prop}
  {V : Value → Prop} {lt : Value → Value → Bool} {E : Error → σ → Prop}

theorem sink (h : Sortable slots first n Shows V lt E) {lo k : Nat} (hlo : first ≤ lo) (hk : k ≤ n)
    (room : Nat) : ∀ m f, lo + room = m → m ≤ k → Sinking lt lo m k f →
      Brings Shows E f (slots.sink room m)
        (fun _ g => Arranged (Within lo k) f g ∧ Ordered lt lo k g) := by
  induction room with
  | zero =>
    intro m f hm hmk hf
    refine h.of_values fun hV => Brings.pure ⟨Arranged.refl _ f, ?_⟩
    exact hf.ordered h.strictWeak (fun i hi hik => hV i (by omega) (by omega)) (by omega)
      fun hlt => absurd hlt (by omega)
  | succ room ih =>
    intro m f hm hmk hf
    refine h.of_values fun hV => ?_
    refine Brings.bind_known (h.lessAt f ⟨by omega, by omega⟩ ⟨by omega, by omega⟩) ?_
    refine Brings.ite (fun hless => ?_) fun hless => Brings.pure ⟨Arranged.refl _ _, ?_⟩
    · have hpass := h.strictWeak.asymm (hV m (by omega) (by omega))
        (hV (m - 1) (by omega) (by omega)) hless
      refine Brings.bind_to (h.exchange f ⟨by omega, by omega⟩ ⟨by omega, by omega⟩) fun _ => ?_
      have hsunk := ih (m - 1) _ (by omega) (by omega) (hf.step (by omega) hmk hpass)
      refine hsunk.mono fun _ g hg => ⟨Arranged.trans (Arranged.exchanged f ?_ ?_) hg.1, hg.2⟩
      · exact ⟨by omega, hmk⟩
      · exact ⟨by omega, by omega⟩
    · exact hf.ordered h.strictWeak (fun i hi hik => hV i (by omega) (by omega)) (by omega)
        fun _ => hless

theorem sinkAll (h : Sortable slots first n Shows V lt E) {lo hi : Nat} (hlo : first ≤ lo) (hhi : hi ≤ n)
    (steps : Nat) : ∀ k f, lo ≤ k → k + steps = hi + 1 → Ordered lt lo (k - 1) f →
      Brings Shows E f (slots.sinkAll lo steps k)
        (fun _ g => Arranged (Within lo hi) f g ∧ Ordered lt lo hi g) := by
  induction steps with
  | zero =>
    intro k f hk hsteps hf
    refine Brings.pure ⟨Arranged.refl _ f, ?_⟩
    have hkhi : k - 1 = hi := by omega
    exact hkhi ▸ hf
  | succ steps ih =>
    intro k f hk hsteps hf
    refine Brings.bind (h.sink hlo (by omega) (k - lo) k f (by omega) (Nat.le_refl k)
      (Sinking.of_ordered hf)) fun _ g hg => ?_
    have hwithin : Arranged (Within lo hi) f g := by
      refine hg.1.mono fun i hi => ⟨hi.1, ?_⟩
      have hik := hi.2
      omega
    exact (ih (k + 1) g (by omega) (by omega) hg.2).mono fun _ g' hg' =>
      ⟨hwithin.trans hg'.1, hg'.2⟩

theorem insertionSort (h : Sortable slots first n Shows V lt E) (f : Nat → Value) {lo hi : Nat}
    (hlo : first ≤ lo) (hhi : hi ≤ n) :
    Brings Shows E f (slots.insertionSort lo hi)
      (fun _ g => Arranged (Within lo hi) f g ∧ Ordered lt lo hi g) := by
  by_cases hle : lo ≤ hi
  · exact h.sinkAll hlo hhi (hi - lo) (lo + 1) f (by omega) (by omega)
      (Ordered.of_le lt (by omega) f)
  · rw [Slots.insertionSort, Nat.sub_eq_zero_of_le (by omega)]
    exact Brings.pure ⟨Arranged.refl _ f, Ordered.of_le lt (by omega) f⟩

end Sortable

end Slots

end ScriptTables
