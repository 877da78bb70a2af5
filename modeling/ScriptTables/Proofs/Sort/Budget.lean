import Mathlib.Tactic.Ring
import ScriptTables.Proofs.Budget
import ScriptTables.Sort.Range

/-!
# What a sort spends

How often a sort of so many slots reads, writes and asks, however the slots answer.  A partition looks
at each slot a few times; the depth budget bounds how often a slot can take part in one, and what it
leaves to the heap sort costs as much again.

* `Slots.Metered slots spent`   reading, writing and asking spend one each;
* `Metered.insertionSort`, `Metered.heapSort`, `Metered.partition`   the parts;
* `Metered.sort`                `n` slots take at most `97 * n * (log₂ n + 1)`.
-/

namespace ScriptTables

namespace Slots

structure Metered {σ : Type} (slots : Slots σ) (spent : σ → Nat) : Prop where
  get : ∀ i, Takes spent 1 (slots.get i)
  set : ∀ i v, Takes spent 1 (slots.set i v)
  less : ∀ a b, Takes spent 1 (slots.less a b)

namespace Metered

section
variable {σ : Type} {slots : Slots σ} {spent : σ → Nat}

theorem lessAt (h : slots.Metered spent) (i j : Nat) : Takes spent 3 (slots.lessAt i j) := by
  refine (h.get i).bind (by omega) fun a => ?_
  refine (h.get j).bind (by omega) fun b => ?_
  exact h.less a b

theorem swap (h : slots.Metered spent) (i j : Nat) : Takes spent 4 (slots.swap i j) := by
  refine (h.get i).bind (by omega) fun a => ?_
  refine (h.get j).bind (by omega) fun b => ?_
  refine (h.set i b).bind (by omega) fun _ => ?_
  exact h.set j a

theorem swapIfLess (h : slots.Metered spent) (i j : Nat) :
    Takes spent 7 (slots.swapIfLess i j) := by
  refine (h.lessAt i j).bind (by omega) fun less => ?_
  exact Takes.ite (h.swap i j) (Takes.pure ())

/-! ## insertion sort -/

theorem sink (h : slots.Metered spent) (room : Nat) :
    ∀ m, Takes spent (7 * room) (slots.sink room m) := by
  induction room with
  | zero => exact fun m => Takes.pure ()
  | succ room ih =>
    intro m
    refine (h.lessAt m (m - 1)).bind (by omega) fun less => ?_
    refine Takes.ite ?_ (Takes.pure ())
    refine (h.swap m (m - 1)).bind (by omega) fun _ => ?_
    exact (ih (m - 1)).le (by omega)

/-- each of the values sinks by no more than the width of the range -/
theorem sinkAll (h : slots.Metered spent) {lo width : Nat} (n : Nat) :
    ∀ k, k + n ≤ lo + width + 1 → Takes spent (n * (7 * width)) (slots.sinkAll lo n k) := by
  induction n with
  | zero => exact fun k _ => Takes.pure ()
  | succ n ih =>
    intro k hk
    have hsink : Takes spent (7 * width) (slots.sink (k - lo) k) := (h.sink _ k).le (by omega)
    rw [Nat.succ_mul]
    refine hsink.bind (Nat.le_add_left _ _) fun _ => ?_
    rw [Nat.add_sub_cancel]
    exact ih (k + 1) (by omega)

theorem insertionSort (h : slots.Metered spent) (lo hi : Nat) :
    Takes spent ((hi - lo) * (7 * (hi - lo))) (slots.insertionSort lo hi) := by
  by_cases hle : lo ≤ hi
  · exact h.sinkAll (hi - lo) (lo + 1) (by omega)
  · rw [Slots.insertionSort, Nat.sub_eq_zero_of_le (by omega)]
    exact Takes.pure ()

/-! ## heap sort -/

theorem greaterChild (h : slots.Metered spent) (base root len : Nat) :
    Spends spent 3 (slots.greaterChild base root len) (fun child => 2 * root + 1 ≤ child)
      fun _ => 0 := by
  unfold Slots.greaterChild
  by_cases hc : 2 * root + 1 + 1 < len
  · simp only [if_pos hc]
    refine (h.lessAt _ _).spends_bind (Nat.le_refl 3) fun less => ?_
    refine Spends.ite (Spends.pure ?_ (Nat.zero_le _)) (Spends.pure ?_ (Nat.zero_le _)) <;> omega
  · simp only [if_neg hc]
    exact Spends.pure (Nat.le_refl _) (Nat.zero_le _)

/-- a node with `k` levels below it; the number of a child more than doubles -/
theorem siftDownWithin (h : slots.Metered spent) (base len steps : Nat) :
    ∀ root k, len < (root + 1) * 2 ^ k →
      Takes spent (10 * k) (slots.siftDownWithin base len steps root) := by
  induction steps with
  | zero => exact fun root k _ => Takes.pure ()
  | succ steps ih =>
    intro root k hk
    unfold Slots.siftDownWithin
    by_cases hroot : 2 * root + 1 < len
    · rw [if_pos hroot]
      cases k with
      | zero =>
        rw [Nat.pow_zero, Nat.mul_one] at hk
        exact absurd hroot (by omega)
      | succ k =>
        have hchild : Spends spent (10 * (k + 1)) (slots.greaterChild base root len)
            (fun child => 2 * root + 1 ≤ child) fun _ => 10 * k + 7 :=
          Spends.more (h.greaterChild base root len) (by omega) fun _ _ => by omega
        refine hchild.bind fun child hle => ?_
        refine (h.lessAt _ _).bind (by omega) fun less => ?_
        refine Takes.ite ?_ (Takes.pure ())
        refine (h.swap _ _).bind (by omega) fun _ => ?_
        have hlevels : len < (child + 1) * 2 ^ k := by
          have hdouble : (root + 1) * 2 ^ (k + 1) = (2 * root + 1 + 1) * 2 ^ k := by
            rw [Nat.pow_succ]
            ring
          have hmul : (2 * root + 1 + 1) * 2 ^ k ≤ (child + 1) * 2 ^ k :=
            Nat.mul_le_mul_right _ (by omega)
          omega
        exact (ih child k hlevels).le (by omega)
    · rw [if_neg hroot]
      exact Takes.pure ()

theorem heapify (h : slots.Metered spent) (base : Nat) {len k : Nat} (hlen : len < 2 ^ k)
    (n : Nat) : Takes spent (n * (10 * k)) (slots.heapify base len n) := by
  induction n with
  | zero => exact Takes.pure ()
  | succ n ih =>
    have hlevels : len < (n + 1) * 2 ^ k :=
      Nat.lt_of_lt_of_le hlen (Nat.le_mul_of_pos_left _ (Nat.succ_pos n))
    rw [Nat.succ_mul]
    refine (h.siftDownWithin base len len n k hlevels).bind (Nat.le_add_left _ _) fun _ => ?_
    rw [Nat.add_sub_cancel]
    exact ih

theorem drain (h : slots.Metered spent) (base k : Nat) (last : Nat) :
    last < 2 ^ k → Takes spent (last * (4 + 10 * k)) (slots.drain base last) := by
  induction last with
  | zero => exact fun _ => Takes.pure ()
  | succ last ih =>
    intro hlast
    have hlevels : last + 1 < (0 + 1) * 2 ^ k := by omega
    rw [Nat.succ_mul]
    refine (h.swap _ _).bind (by omega) fun _ => ?_
    refine (h.siftDownWithin base (last + 1) (last + 1) 0 k hlevels).bind (by omega) fun _ => ?_
    exact (ih (by omega)).le (by omega)

theorem heapSort (h : slots.Metered spent) {lo hi k : Nat} (hk : 1 ≤ k)
    (hlen : hi - lo + 1 < 2 ^ k) :
    Takes spent ((hi - lo + 1) * (19 * k)) (slots.heapSort lo hi) := by
  have hheapify := h.heapify lo hlen ((hi - lo + 1) / 2)
  have hdrain := h.drain lo k (hi - lo) (by omega)
  have hhalf : (hi - lo + 1) / 2 * (10 * k) ≤ (hi - lo + 1) * (5 * k) := by
    have hdiv : (hi - lo + 1) / 2 * 2 ≤ hi - lo + 1 := Nat.div_mul_le_self _ 2
    calc (hi - lo + 1) / 2 * (10 * k) = (hi - lo + 1) / 2 * 2 * (5 * k) := by ring
      _ ≤ (hi - lo + 1) * (5 * k) := Nat.mul_le_mul_right _ hdiv
  have hrest : (hi - lo) * (4 + 10 * k) ≤ (hi - lo + 1) * (14 * k) :=
    Nat.mul_le_mul (Nat.le_succ _) (by omega)
  have hsum : (hi - lo + 1) * (19 * k) = (hi - lo + 1) * (5 * k) + (hi - lo + 1) * (14 * k) := by
    ring
  refine hheapify.bind (by omega) fun _ => ?_
  exact hdrain.le (by omega)

/-! ## partition -/

theorem medianToMiddle (h : slots.Metered spent) (lo mid hi : Nat) :
    Takes spent 21 (slots.medianToMiddle lo mid hi) := by
  refine (h.swapIfLess mid lo).bind (by omega) fun _ => ?_
  refine (h.lessAt hi mid).bind (by omega) fun less => ?_
  refine Takes.ite ?_ (Takes.pure ())
  refine (h.swap hi mid).bind (by omega) fun _ => ?_
  exact h.swapIfLess mid lo

theorem scanUp (h : slots.Metered spent) (pivot : Value) (room : Nat) :
    ∀ i, Spends spent (2 * room) (slots.scanUp pivot room i) (fun a => i ≤ a ∧ a ≤ i + room)
      fun a => 2 * (i + room - (a + 1)) := by
  induction room with
  | zero => exact fun i => Spends.pure ⟨Nat.le_refl i, Nat.le_refl i⟩ (by omega)
  | succ room ih =>
    intro i
    refine (h.get i).spends_bind (by omega) fun v => ?_
    refine (h.less v pivot).spends_bind (by omega) fun less => ?_
    refine Spends.ite ?_ (Spends.pure ⟨Nat.le_refl i, by omega⟩ (by omega))
    refine (Spends.more (ih (i + 1)) (by omega) fun a ha => ?_).mono
      fun a ha => ⟨?_, Nat.le_refl _⟩ <;> omega

theorem scanDown (h : slots.Metered spent) (pivot : Value) (room : Nat) :
    ∀ j, room ≤ j → Spends spent (2 * room) (slots.scanDown pivot room j)
      (fun a => a ≤ j ∧ j ≤ a + room) fun a => 2 * (room - (j - a + 1)) := by
  induction room with
  | zero => exact fun j _ => Spends.pure ⟨Nat.le_refl j, Nat.le_refl j⟩ (by omega)
  | succ room ih =>
    intro j hj
    refine (h.get j).spends_bind (by omega) fun v => ?_
    refine (h.less pivot v).spends_bind (by omega) fun less => ?_
    refine Spends.ite ?_ (Spends.pure ⟨Nat.le_refl j, by omega⟩ (by omega))
    refine (Spends.more (ih (j - 1) (by omega)) (by omega) fun a ha => ?_).mono
      fun a ha => ⟨?_, Nat.le_refl _⟩ <;> omega

/-- A lap that is followed by another one has moved both cursors, which pays for its exchange. -/
theorem cross (h : slots.Metered spent) (pivot : Value) (lo top laps : Nat) :
    ∀ i j, lo ≤ i → i < top → lo < j → j ≤ top → top ≤ laps + i →
      Spends spent (4 * (top - i + (j - lo))) (slots.cross pivot lo top laps i j)
        (fun a => i < a ∧ a ≤ top) fun _ => 0 := by
  induction laps with
  | zero =>
    intro i j _ hi _ _ hlaps
    exact absurd hlaps (by omega)
  | succ laps ih =>
    intro i j hli hi hlj hj hlaps
    have hup : Spends spent (4 * (top - i + (j - lo))) (slots.scanUp pivot (top - (i + 1)) (i + 1))
        (fun a => i < a ∧ a ≤ top)
        fun a => 4 * (top - i + (j - lo)) - 2 * (top - (i + 1)) + 2 * (top - (a + 1)) := by
      refine Spends.more ((h.scanUp pivot _ (i + 1)).mono fun a ha => ⟨?_, Nat.le_refl _⟩)
        (by omega) ?_
      · omega
      · intro a ha
        omega
    refine hup.bind fun i' hi' => ?_
    have hdown : Spends spent
        (4 * (top - i + (j - lo)) - 2 * (top - (i + 1)) + 2 * (top - (i' + 1)))
        (slots.scanDown pivot (j - 1 - lo) (j - 1)) (fun a => lo ≤ a ∧ a < j)
        fun a => 4 * (top - i + (j - lo)) - 2 * (top - (i + 1)) + 2 * (top - (i' + 1))
          - 2 * (j - 1 - lo) + 2 * (a - (lo + 1)) := by
      refine Spends.more ((h.scanDown pivot _ (j - 1) (by omega)).mono
        fun a ha => ⟨?_, Nat.le_refl _⟩) (by omega) ?_
      · omega
      · intro a ha
        omega
    refine hdown.bind fun j' hj' => ?_
    by_cases hpassed : j' < i'
    · rw [if_pos hpassed]
      exact Spends.pure ⟨by omega, hi'.2⟩ (Nat.zero_le _)
    · rw [if_neg hpassed]
      refine (h.swap i' j').spends_bind (by omega) fun _ => ?_
      refine Spends.more ((ih i' j' ?_ ?_ ?_ ?_ ?_).mono fun a ha => ⟨?_, Nat.le_refl _⟩) ?_ ?_
      iterate 7 omega
      exact fun _ _ => Nat.zero_le _

theorem partition (h : slots.Metered spent) {lo hi : Nat} (hle : lo + 2 ≤ hi) :
    Spends spent (30 + 8 * (hi - 1 - lo)) (slots.partition lo hi) (fun p => lo < p ∧ p < hi)
      fun _ => 0 := by
  refine (h.medianToMiddle _ _ _).spends_bind (by omega) fun _ => ?_
  refine (h.get _).spends_bind (by omega) fun pivot => ?_
  refine (h.swap _ _).spends_bind (by omega) fun _ => ?_
  have hcross := h.cross pivot lo (hi - 1) (hi - lo) lo (hi - 1) (Nat.le_refl lo) (by omega)
    (by omega) (Nat.le_refl _) (by omega)
  have hrest : Spends spent (30 + 8 * (hi - 1 - lo) - 21 - 1 - 4)
      (slots.cross pivot lo (hi - 1) (hi - lo) lo (hi - 1)) (fun p => lo < p ∧ p ≤ hi - 1)
      fun _ => 4 := Spends.more hcross (by omega) fun _ _ => by omega
  refine hrest.bind fun p hp => ?_
  refine (h.swap _ _).spends_bind (Nat.le_refl 4) fun _ => ?_
  exact Spends.pure ⟨hp.1, by omega⟩ (Nat.zero_le _)

/-! ## ranges -/

theorem short (h : slots.Metered spent) {lo hi n levels : Nat} (hn : hi + 1 ≤ lo + n)
    (hlevels : 1 ≤ levels) (hshort : ¬lo + partitionThreshold ≤ hi) :
    Takes spent (n * (77 * levels)) (slots.insertionSort lo hi) := by
  have hthreshold : partitionThreshold = 12 := rfl
  refine (h.insertionSort lo hi).le ?_
  exact Nat.mul_le_mul (by omega) (by omega)

/-- a range of at most `n` slots, for the heap sort a tree of so many levels -/
theorem sortRange (h : slots.Metered spent) {levels : Nat} (hlevels : 1 ≤ levels) (depth : Nat) :
    ∀ lo hi n, hi + 1 ≤ lo + n → n < 2 ^ levels →
      Takes spent (n * (10 * depth + 77 * levels)) (slots.sortRange depth lo hi) := by
  induction depth with
  | zero =>
    intro lo hi n hn hfits
    unfold Slots.sortRange
    rw [Nat.mul_zero, Nat.zero_add]
    by_cases hlong : lo + partitionThreshold ≤ hi
    · rw [if_pos hlong]
      refine (h.heapSort hlevels (by omega)).le ?_
      exact Nat.mul_le_mul (by omega) (by omega)
    · rw [if_neg hlong]
      exact h.short hn hlevels hlong
  | succ depth ih =>
    intro lo hi n hn hfits
    unfold Slots.sortRange
    by_cases hlong : lo + partitionThreshold ≤ hi
    · rw [if_pos hlong]
      have hthreshold : partitionThreshold = 12 := rfl
      -- the pivot is in neither part, so the parts share what is left after the partition
      have hsplit : ∀ p, lo ≤ p ∧ p < hi →
          10 * n + ((p - lo) * (10 * depth + 77 * levels) + (hi - p) * (10 * depth + 77 * levels))
            ≤ n * (10 * (depth + 1) + 77 * levels) := by
        intro p hp
        have hparts : (p - lo) + (hi - p) ≤ n := by omega
        calc 10 * n + ((p - lo) * (10 * depth + 77 * levels)
                + (hi - p) * (10 * depth + 77 * levels))
            = 10 * n + ((p - lo) + (hi - p)) * (10 * depth + 77 * levels) := by ring
          _ ≤ 10 * n + n * (10 * depth + 77 * levels) :=
              Nat.add_le_add_left (Nat.mul_le_mul_right _ hparts) _
          _ = n * (10 * (depth + 1) + 77 * levels) := by ring
      have hpartition : Spends spent (n * (10 * (depth + 1) + 77 * levels))
          (slots.partition lo hi) (fun p => lo < p ∧ p < hi)
          fun p => (p - lo) * (10 * depth + 77 * levels) + (hi - p) * (10 * depth + 77 * levels) := by
        have hbudget := hsplit lo ⟨Nat.le_refl lo, by omega⟩
        refine Spends.more (h.partition (by omega)) (by omega) fun p hp => ?_
        have hleft := hsplit p ⟨Nat.le_of_lt hp.1, hp.2⟩
        omega
      refine hpartition.bind fun p hp => ?_
      have hbelow := ih lo (p - 1) (p - lo) (by omega) (by omega)
      have habove := ih (p + 1) hi (hi - p) (by omega) (by omega)
      by_cases hshort : p - lo < hi - p
      · rw [if_pos hshort]
        exact hbelow.bind (Nat.le_add_right _ _) fun _ => habove.le (by omega)
      · rw [if_neg hshort]
        exact habove.bind (Nat.le_add_left _ _) fun _ => hbelow.le (by omega)
    · rw [if_neg hlong]
      refine (h.short hn hlevels hlong).le (Nat.mul_le_mul_left _ (by omega))

theorem sort (h : slots.Metered spent) (n : Nat) :
    Takes spent (97 * (n * (n.log2 + 1))) (slots.sort n) := by
  have hfits : n < 2 ^ (n.log2 + 1) := Nat.lt_log2_self
  have hlevels : 1 ≤ n.log2 + 1 := Nat.le_add_left _ _
  refine (h.sortRange hlevels (depthBudget n) 1 n n (by omega) hfits).le (Nat.le_of_eq ?_)
  rw [depthBudget]
  ring

end

end Metered

end Slots

end ScriptTables
