import ScriptTables.Proofs.Sort.Heap
import ScriptTables.Proofs.Sort.Insertion
import ScriptTables.Proofs.Sort.Partition

/-!
# A sort puts a range in order

A range is split around a pivot and its sides are sorted one after the other.  A side that is sorted
leaves the other as it was and stays on its side of the pivot, so it does not matter which one goes
first; nor does the budget, which only decides how a range is sorted.

* `Slots.Split.sorted`         a split of which both sides were sorted;
* `Slots.Sortable.sortRange`   the slots `lo, ..., hi`, with any budget.
-/

namespace ScriptTables

namespace Slots

section
variable {V : Value → Prop} {lt : Value → Value → Bool} {lo p hi : Nat} {f g k : Nat → Value}

/-- two sides sorted one after the other, whichever was the first -/
theorem Split.sorted (h : Split lt lo p hi f) (hlt : StrictWeak V lt)
    (hV : ∀ i, lo ≤ i → i ≤ hi → V (f i)) (hp : lo < p ∧ p < hi) {D D' : Nat → Prop}
    (hg : Arranged D f g) (hk : Arranged D' g k)
    (hD : (∀ x, D x → lo ≤ x ∧ x < p) ∨ ∀ x, D x → p < x ∧ x ≤ hi)
    (hD' : (∀ x, D' x → lo ≤ x ∧ x < p) ∨ ∀ x, D' x → p < x ∧ x ≤ hi)
    (hleft : Ordered lt lo (p - 1) k) (hright : Ordered lt (p + 1) hi k) :
    Arranged (Within lo hi) f k ∧ Ordered lt lo hi k := by
  have hwithin : ∀ D : Nat → Prop, ((∀ x, D x → lo ≤ x ∧ x < p) ∨ ∀ x, D x → p < x ∧ x ≤ hi) →
      ∀ x, D x → Within lo hi x := by
    intro D hD x hx
    rcases hD with hD | hD
    · have hside := hD x hx
      exact ⟨hside.1, by omega⟩
    · have hside := hD x hx
      exact ⟨by omega, hside.2⟩
  have hperm : Arranged (Within lo hi) f k :=
    (hg.mono (hwithin D hD)).trans (hk.mono (hwithin D' hD'))
  have hsplit : Split lt lo p hi k := (h.arranged hg hD).arranged hk hD'
  have hVk : ∀ i, lo ≤ i → i ≤ hi → V (k i) := fun i hli hih =>
    hperm.forall_of (fun i hi => hV i hi.1 hi.2) i ⟨hli, hih⟩
  refine ⟨hperm, ?_⟩
  exact Ordered.join hlt hVk ⟨by omega, by omega⟩ hsplit.before hsplit.behind hleft hright

end

namespace Sortable

variable {σ : Type} {slots : Slots σ} {first n : Nat} {Shows : σ → (Nat → Value) → Prop}
  {V : Value → Prop} {lt : Value → Value → Bool} {E : Error → σ → Prop}

/-- **A sort puts a range in order, with any budget, and touches nothing else.** -/
theorem sortRange (h : Sortable slots first n Shows V lt E) (depth : Nat) :
    ∀ lo hi f, first ≤ lo → hi ≤ n → Brings Shows E f (slots.sortRange depth lo hi)
      (fun _ g => Arranged (Within lo hi) f g ∧ Ordered lt lo hi g) := by
  induction depth with
  | zero =>
    intro lo hi f hlo hhi
    unfold Slots.sortRange
    by_cases hlong : lo + partitionThreshold ≤ hi
    · rw [if_pos hlong]
      exact h.heapSort f hlo (by omega) hhi
    · rw [if_neg hlong]
      exact h.insertionSort f hlo hhi
  | succ depth ih =>
    intro lo hi f hlo hhi
    unfold Slots.sortRange
    by_cases hlong : lo + partitionThreshold ≤ hi
    · rw [if_pos hlong]
      have hthreshold : 2 ≤ partitionThreshold := by decide
      refine Brings.bind (h.partition f hlo (by omega) hhi) ?_
      intro p f₁ hf₁
      obtain ⟨hp, hperm, hsplit⟩ := hf₁
      refine h.of_values fun hV => ?_
      have hV : ∀ i, lo ≤ i → i ≤ hi → V (f₁ i) := fun i hi hih => hV i (by omega) (by omega)
      have hlow : ∀ x, Within lo (p - 1) x → lo ≤ x ∧ x < p := by
        intro x hx
        have hxp := hx.2
        exact ⟨hx.1, by omega⟩
      have hhigh : ∀ x, Within (p + 1) hi x → p < x ∧ x ≤ hi := fun x hx => hx
      by_cases hshort : p - lo < hi - p
      · rw [if_pos hshort]
        refine Brings.bind (ih lo (p - 1) f₁ hlo (by omega)) ?_
        intro _ g hg
        refine (ih (p + 1) hi g (by omega) hhi).mono fun _ k hk => ?_
        have hleft : Ordered lt lo (p - 1) k :=
          hg.2.arranged hk.1 fun i _ hip hin => absurd (hhigh i hin).1 (by omega)
        have hside := hsplit.sorted h.strictWeak hV hp hg.1 hk.1 (Or.inl hlow) (Or.inr hhigh)
          hleft hk.2
        exact ⟨hperm.trans hside.1, hside.2⟩
      · rw [if_neg hshort]
        refine Brings.bind (ih (p + 1) hi f₁ (by omega) hhi) ?_
        intro _ g hg
        refine (ih lo (p - 1) g hlo (by omega)).mono fun _ k hk => ?_
        have hright : Ordered lt (p + 1) hi k :=
          hg.2.arranged hk.1 fun i hpi _ hin => absurd (hlow i hin).2 (by omega)
        have hside := hsplit.sorted h.strictWeak hV hp hg.1 hk.1 (Or.inr hhigh) (Or.inl hlow)
          hk.2 hright
        exact ⟨hperm.trans hside.1, hside.2⟩
    · rw [if_neg hlong]
      exact h.insertionSort f hlo hhi

end Sortable

end Slots

end ScriptTables
