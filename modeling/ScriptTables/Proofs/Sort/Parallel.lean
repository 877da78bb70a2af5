import ScriptTables.Proofs.Action
import ScriptTables.Sort.Range

/-!
# Two sorts side by side

Two kinds of slots are run through the same sort.  As long as reading, exchanging and asking go alike
on related states, the sorts go alike: at every step both do the same, or both fail.  Nothing is
asked of the answers, so the bounds below come from the positions of the cursors alone.

* `Slots.Parallel`            what reading, exchanging and asking have to do;
* `Slots.Parallel.partition`  the place of the pivot is the same, and is neither end;
* `Slots.Parallel.sortRange`  a sort of a range, with any budget.

A relation that holds of a state and itself makes this a law about one sort: what reading, exchanging
and asking keep true is kept true by the sort (`Slots.Confined.sortRange`).
-/

namespace ScriptTables

namespace Slots

/-- reading, exchanging and asking go alike for the slots `1, ..., n` -/
structure Parallel {σ τ : Type} (A : Slots σ) (B : Slots τ) (n : Nat) (R : σ → τ → Prop)
    (E : Error → Error → σ → τ → Prop) (V : Value → Value → Prop) : Prop where
  get : ∀ i, 1 ≤ i → i ≤ n → Alike R E V (A.get i) (B.get i)
  swap : ∀ i j, 1 ≤ i → i ≤ n → 1 ≤ j → j ≤ n →
    Alike R E (fun _ _ => True) (A.swap i j) (B.swap i j)
  less : ∀ a b c d, V a b → V c d → Alike R E (· = ·) (A.less a c) (B.less b d)

namespace Parallel

section
variable {σ τ : Type} {A : Slots σ} {B : Slots τ} {n : Nat} {R : σ → τ → Prop}
  {E : Error → Error → σ → τ → Prop} {V : Value → Value → Prop}

theorem lessAt (h : Parallel A B n R E V) {i j : Nat} (hi : 1 ≤ i ∧ i ≤ n) (hj : 1 ≤ j ∧ j ≤ n) :
    Alike R E (· = ·) (A.lessAt i j) (B.lessAt i j) := by
  refine Alike.bind (h.get i hi.1 hi.2) fun a b hab => ?_
  refine Alike.bind (h.get j hj.1 hj.2) fun c d hcd => ?_
  exact h.less a b c d hab hcd

theorem swapIfLess (h : Parallel A B n R E V) {i j : Nat} (hi : 1 ≤ i ∧ i ≤ n)
    (hj : 1 ≤ j ∧ j ≤ n) :
    Alike R E (fun _ _ => True) (A.swapIfLess i j) (B.swapIfLess i j) := by
  refine Alike.bind_eq (h.lessAt hi hj) fun less => ?_
  exact Alike.ite (h.swap i j hi.1 hi.2 hj.1 hj.2) (Alike.pure trivial)

/-! ## insertion sort -/

theorem sink (h : Parallel A B n R E V) {lo : Nat} (hlo : 1 ≤ lo) (room : Nat) :
    ∀ m, lo + room ≤ m → m ≤ n →
      Alike R E (fun _ _ => True) (A.sink room m) (B.sink room m) := by
  induction room with
  | zero => exact fun m _ _ => Alike.pure trivial
  | succ room ih =>
    intro m hm hn
    refine Alike.bind_eq (h.lessAt ⟨by omega, hn⟩ ⟨by omega, by omega⟩) fun less => ?_
    refine Alike.ite ?_ (Alike.pure trivial)
    refine Alike.bind (h.swap m (m - 1) (by omega) hn (by omega) (by omega)) fun _ _ _ => ?_
    exact ih (m - 1) (by omega) (by omega)

theorem sinkAll (h : Parallel A B n R E V) {lo : Nat} (hlo : 1 ≤ lo) (steps : Nat) :
    ∀ k, lo ≤ k → k + steps ≤ n + 1 →
      Alike R E (fun _ _ => True) (A.sinkAll lo steps k) (B.sinkAll lo steps k) := by
  induction steps with
  | zero => exact fun k _ _ => Alike.pure trivial
  | succ steps ih =>
    intro k hk hn
    refine Alike.bind (h.sink hlo (k - lo) k (by omega) (by omega)) fun _ _ _ => ?_
    exact ih (k + 1) (by omega) (by omega)

theorem insertionSort (h : Parallel A B n R E V) {lo hi : Nat} (hlo : 1 ≤ lo) (hhi : hi ≤ n) :
    Alike R E (fun _ _ => True) (A.insertionSort lo hi) (B.insertionSort lo hi) := by
  by_cases hle : lo ≤ hi
  · exact h.sinkAll hlo (hi - lo) (lo + 1) (by omega) (by omega)
  · rw [Slots.insertionSort, Slots.insertionSort, Nat.sub_eq_zero_of_le (by omega)]
    exact Alike.pure trivial

/-! ## heap sort -/

theorem greaterChild (h : Parallel A B n R E V) {base root len : Nat} (hbase : 1 ≤ base)
    (hlen : base + len ≤ n + 1) (hroot : 2 * root + 1 < len) :
    Alike R E (fun c d => c = d ∧ root < c ∧ c < len)
      (A.greaterChild base root len) (B.greaterChild base root len) := by
  unfold Slots.greaterChild
  by_cases hc : 2 * root + 1 + 1 < len
  · simp only [if_pos hc]
    refine Alike.bind_eq (h.lessAt ⟨by omega, by omega⟩ ⟨by omega, by omega⟩) fun less => ?_
    refine Alike.ite (Alike.pure ⟨rfl, ?_, ?_⟩) (Alike.pure ⟨rfl, ?_, ?_⟩) <;> omega
  · simp only [if_neg hc]
    exact Alike.pure ⟨rfl, by omega, by omega⟩

theorem siftDownWithin (h : Parallel A B n R E V) {base len : Nat} (hbase : 1 ≤ base)
    (hlen : base + len ≤ n + 1) (steps : Nat) :
    ∀ root, Alike R E (fun _ _ => True) (A.siftDownWithin base len steps root)
      (B.siftDownWithin base len steps root) := by
  induction steps with
  | zero => exact fun root => Alike.pure trivial
  | succ steps ih =>
    intro root
    unfold Slots.siftDownWithin
    by_cases hroot : 2 * root + 1 < len
    · simp only [if_pos hroot]
      refine Alike.bind_same (h.greaterChild hbase hlen hroot) fun child hrange => ?_
      obtain ⟨hlt, hchild⟩ := hrange
      refine Alike.bind_eq (h.lessAt ⟨by omega, by omega⟩ ⟨by omega, by omega⟩) fun less => ?_
      refine Alike.ite ?_ (Alike.pure trivial)
      refine Alike.bind (h.swap (base + root) (base + child) ?_ ?_ ?_ ?_) fun _ _ _ => ih child
        <;> omega
    · simp only [if_neg hroot]
      exact Alike.pure trivial

theorem heapify (h : Parallel A B n R E V) {base len : Nat} (hbase : 1 ≤ base)
    (hlen : base + len ≤ n + 1) (root : Nat) :
    Alike R E (fun _ _ => True) (A.heapify base len root) (B.heapify base len root) := by
  induction root with
  | zero => exact Alike.pure trivial
  | succ root ih =>
    exact Alike.bind (h.siftDownWithin hbase hlen len root) fun _ _ _ => ih

theorem drain (h : Parallel A B n R E V) {base : Nat} (hbase : 1 ≤ base) (last : Nat)
    (hlast : base + last ≤ n) :
    Alike R E (fun _ _ => True) (A.drain base last) (B.drain base last) := by
  induction last with
  | zero => exact Alike.pure trivial
  | succ last ih =>
    refine Alike.bind (h.swap base (base + (last + 1)) hbase (by omega) (by omega) hlast)
      fun _ _ _ => ?_
    refine Alike.bind (h.siftDownWithin hbase (by omega) (last + 1) 0) fun _ _ _ => ?_
    exact ih (by omega)

theorem heapSort (h : Parallel A B n R E V) {lo hi : Nat} (hlo : 1 ≤ lo) (hle : lo ≤ hi)
    (hhi : hi ≤ n) : Alike R E (fun _ _ => True) (A.heapSort lo hi) (B.heapSort lo hi) := by
  refine Alike.bind (h.heapify hlo (by omega) _) fun _ _ _ => ?_
  exact h.drain hlo _ (by omega)

/-! ## partition -/

theorem medianToMiddle (h : Parallel A B n R E V) {lo mid hi : Nat} (hlo : 1 ≤ lo)
    (hmid : lo ≤ mid) (hle : mid ≤ hi) (hhi : hi ≤ n) :
    Alike R E (fun _ _ => True) (A.medianToMiddle lo mid hi) (B.medianToMiddle lo mid hi) := by
  have hl : 1 ≤ lo ∧ lo ≤ n := ⟨hlo, by omega⟩
  have hm : 1 ≤ mid ∧ mid ≤ n := ⟨by omega, by omega⟩
  have hh : 1 ≤ hi ∧ hi ≤ n := ⟨by omega, hhi⟩
  refine Alike.bind (h.swapIfLess hm hl) fun _ _ _ => ?_
  refine Alike.bind_eq (h.lessAt hh hm) fun less => ?_
  refine Alike.ite ?_ (Alike.pure trivial)
  exact Alike.bind (h.swap hi mid hh.1 hh.2 hm.1 hm.2) fun _ _ _ => h.swapIfLess hm hl

theorem scanUp (h : Parallel A B n R E V) {p q : Value} (hpq : V p q) (room : Nat) :
    ∀ i, 1 ≤ i → i + room ≤ n + 1 →
      Alike R E (fun a b => a = b ∧ i ≤ a ∧ a ≤ i + room) (A.scanUp p room i)
        (B.scanUp q room i) := by
  induction room with
  | zero => exact fun i _ _ => Alike.pure ⟨rfl, Nat.le_refl i, Nat.le_refl i⟩
  | succ room ih =>
    intro i hi hn
    refine Alike.bind (h.get i hi (by omega)) fun a b hab => ?_
    refine Alike.bind_eq (h.less a b p q hab hpq) fun less => ?_
    refine Alike.ite ?_ (Alike.pure ⟨rfl, Nat.le_refl i, by omega⟩)
    refine (ih (i + 1) (by omega) (by omega)).mono fun a b hb => ⟨hb.1, ?_, ?_⟩ <;> omega

theorem scanDown (h : Parallel A B n R E V) {p q : Value} (hpq : V p q) (room : Nat) :
    ∀ j, room < j → j ≤ n →
      Alike R E (fun a b => a = b ∧ a ≤ j ∧ j ≤ a + room) (A.scanDown p room j)
        (B.scanDown q room j) := by
  induction room with
  | zero => exact fun j _ _ => Alike.pure ⟨rfl, Nat.le_refl j, Nat.le_refl j⟩
  | succ room ih =>
    intro j hj hn
    refine Alike.bind (h.get j (by omega) hn) fun a b hab => ?_
    refine Alike.bind_eq (h.less p q a b hpq hab) fun less => ?_
    refine Alike.ite ?_ (Alike.pure ⟨rfl, Nat.le_refl j, by omega⟩)
    refine (ih (j - 1) (by omega) (by omega)).mono fun a b hb => ⟨hb.1, ?_, ?_⟩ <;> omega

/-- The cursors stay between `lo` and `top`: the left one only goes up, the right one only down, and
a lap is followed by another one only while the left is not past the right. -/
theorem cross (h : Parallel A B n R E V) {p q : Value} (hpq : V p q) {lo top : Nat}
    (hlo : 1 ≤ lo) (htop : top ≤ n) (laps : Nat) :
    ∀ i j, lo ≤ i → i < top → lo < j → j ≤ top → top ≤ laps + i →
      Alike R E (fun a b => a = b ∧ i < a ∧ a ≤ top) (A.cross p lo top laps i j)
        (B.cross q lo top laps i j) := by
  induction laps with
  | zero =>
    intro i j _ hi _ _ hlaps
    exact absurd hlaps (by omega)
  | succ laps ih =>
    intro i j hli hi hlj hj hlaps
    refine Alike.bind_same (h.scanUp hpq (top - (i + 1)) (i + 1) (by omega) (by omega))
      fun i' hi' => ?_
    refine Alike.bind_same (h.scanDown hpq (j - 1 - lo) (j - 1) (by omega) (by omega))
      fun j' hj' => ?_
    obtain ⟨hi₁, hi₂⟩ := hi'
    obtain ⟨hj₁, hj₂⟩ := hj'
    by_cases hcross : j' < i'
    · simp only [if_pos hcross]
      exact Alike.pure ⟨rfl, by omega, by omega⟩
    · simp only [if_neg hcross]
      refine Alike.bind (h.swap i' j' ?_ ?_ ?_ ?_) fun _ _ _ => ?_
      iterate 4 omega
      refine (ih i' j' ?_ ?_ ?_ ?_ ?_).mono fun a b hb => ⟨hb.1, ?_, hb.2.2⟩ <;> omega

theorem partition (h : Parallel A B n R E V) {lo hi : Nat} (hlo : 1 ≤ lo) (hle : lo + 2 ≤ hi)
    (hhi : hi ≤ n) :
    Alike R E (fun a b => a = b ∧ lo < a ∧ a < hi) (A.partition lo hi) (B.partition lo hi) := by
  have hmid : lo < lo + (hi - lo) / 2 ∧ lo + (hi - lo) / 2 < hi := by omega
  refine Alike.bind (h.medianToMiddle hlo (by omega) (by omega) hhi) fun _ _ _ => ?_
  refine Alike.bind (h.get _ (by omega) (by omega)) fun p q hpq => ?_
  refine Alike.bind (h.swap _ (hi - 1) (by omega) (by omega) (by omega) (by omega)) fun _ _ _ => ?_
  refine Alike.bind_same (h.cross hpq hlo (by omega) (hi - lo) lo (hi - 1) ?_ ?_ ?_ ?_ ?_)
    fun i hrange => ?_
  iterate 5 omega
  obtain ⟨hi₁, hi₂⟩ := hrange
  refine Alike.bind (h.swap (hi - 1) i ?_ ?_ ?_ ?_) fun _ _ _ => Alike.pure ⟨rfl, hi₁, ?_⟩
    <;> omega

/-! ## ranges -/

theorem sortRange (h : Parallel A B n R E V) (depth : Nat) :
    ∀ lo hi, 1 ≤ lo → hi ≤ n →
      Alike R E (fun _ _ => True) (A.sortRange depth lo hi) (B.sortRange depth lo hi) := by
  induction depth with
  | zero =>
    intro lo hi hlo hhi
    unfold Slots.sortRange
    by_cases hlong : lo + partitionThreshold ≤ hi
    · simp only [if_pos hlong]
      exact h.heapSort hlo (by omega) hhi
    · simp only [if_neg hlong]
      exact h.insertionSort hlo hhi
  | succ depth ih =>
    intro lo hi hlo hhi
    unfold Slots.sortRange
    by_cases hlong : lo + partitionThreshold ≤ hi
    · simp only [if_pos hlong]
      have hthreshold : 2 ≤ partitionThreshold := by decide
      refine Alike.bind_same (h.partition hlo (by omega) hhi) fun p hp => ?_
      obtain ⟨hp₁, hp₂⟩ := hp
      by_cases hshort : p - lo < hi - p
      · simp only [if_pos hshort]
        exact Alike.bind (ih lo (p - 1) hlo (by omega)) fun _ _ _ => ih (p + 1) hi (by omega) hhi
      · simp only [if_neg hshort]
        exact Alike.bind (ih (p + 1) hi (by omega) hhi) fun _ _ _ => ih lo (p - 1) hlo (by omega)
    · simp only [if_neg hlong]
      exact h.insertionSort hlo hhi

end

end Parallel

/-! ## one sort -/

/-- reading the slots `1, ..., n` and exchanging them keep `P` true, and so does asking about values
with `V`, which are all that is read; or else they fail as `E` tells -/
structure Confined {σ : Type} (slots : Slots σ) (n : Nat) (P : σ → Prop) (V : Value → Prop)
    (E : Error → σ → Prop) : Prop where
  get : ∀ i, 1 ≤ i → i ≤ n → Ends P (slots.get i) (fun v s => V v ∧ P s) E
  swap : ∀ i j, 1 ≤ i → i ≤ n → 1 ≤ j → j ≤ n → Ends P (slots.swap i j) (fun _ => P) E
  less : ∀ a b, V a → V b → Ends P (slots.less a b) (fun _ => P) E

namespace Confined

variable {σ : Type} {slots : Slots σ} {n : Nat} {P : σ → Prop} {V : Value → Prop}
  {E : Error → σ → Prop}

theorem parallel (h : Confined slots n P V E) :
    Parallel slots slots n (fun s t => s = t ∧ P s) (fun e _ s _ => E e s)
      (fun a b => a = b ∧ V a) where
  get i hi hn := alike_self.mpr (h.get i hi hn)
  swap i j hi hin hj hjn := by
    refine (alike_self (V := fun _ => True).mpr ?_).mono fun _ _ _ => trivial
    exact (h.swap i j hi hin hj hjn).mono (fun _ hs => hs) (fun _ _ hs => ⟨trivial, hs⟩)
      fun _ _ he => he
  less := by
    intro a b c d hab hcd
    obtain ⟨rfl, ha⟩ := hab
    obtain ⟨rfl, hc⟩ := hcd
    refine (alike_self (V := fun _ => True).mpr ?_).mono fun _ _ hab => hab.1
    exact (h.less a c ha hc).mono (fun _ hs => hs) (fun _ _ hs => ⟨trivial, hs⟩) fun _ _ he => he

/-- the place of the pivot is neither end, whatever the answers -/
theorem partition (h : Confined slots n P V E) {lo hi : Nat} (hlo : 1 ≤ lo) (hle : lo + 2 ≤ hi)
    (hhi : hi ≤ n) :
    Ends P (slots.partition lo hi) (fun p s => (lo < p ∧ p < hi) ∧ P s) E :=
  alike_self.mp (h.parallel.partition hlo hle hhi)

theorem sortRange (h : Confined slots n P V E) (depth : Nat) {lo hi : Nat} (hlo : 1 ≤ lo)
    (hhi : hi ≤ n) : Ends P (slots.sortRange depth lo hi) (fun _ => P) E := by
  have hsort := (h.parallel.sortRange depth lo hi hlo hhi).mono (U := fun a b => a = b ∧ True)
    fun _ _ _ => ⟨rfl, trivial⟩
  exact (alike_self.mp hsort).mono (fun _ hs => hs) (fun _ _ hs => hs.2) fun _ _ he => he

end Confined

end Slots

end ScriptTables
