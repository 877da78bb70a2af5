import ScriptTables.Proofs.Sort.Sortable

/-!
# Heap sort puts a range in order

The node `i` of a heap is kept in the slot `base + i`.  A node is settled when it does not belong
before any of its children; a heap is a tree all of whose nodes are settled.

* `Slots.IsChild`, `Slots.Below`   the tree of the nodes;
* `Slots.Settled`                  a node and its children;
* `Slots.Sifted`, `Slots.Drained`  a tree that was sifted, and a heap that was emptied in part;
* `Slots.heapSortSteps`            building a heap, and the first steps of emptying it;
* `Slots.Sortable.siftDown`        a tree that is settled but for its root becomes settled;
* `Slots.Sortable.heapSortSteps`   what is true after each step;
* `Slots.Sortable.heapSort`        the range afterwards.
-/

namespace ScriptTables

namespace Slots

/-! ## the tree of the nodes -/

def IsChild (c p : Nat) : Prop := c = 2 * p + 1 ∨ c = 2 * p + 2

theorem IsChild.lt {c p : Nat} (h : IsChild c p) : p < c := by
  unfold IsChild at h
  omega

theorem IsChild.unique {c p q : Nat} (hp : IsChild c p) (hq : IsChild c q) : p = q := by
  unfold IsChild at hp hq
  omega

theorem isChild_parent {c : Nat} (h : 0 < c) : IsChild c ((c - 1) / 2) := by
  unfold IsChild
  omega

inductive Below (root : Nat) : Nat → Prop
  | root : Below root root
  | child {p c : Nat} (h : Below root p) (hc : IsChild c p) : Below root c

theorem Below.le {root i : Nat} (h : Below root i) : root ≤ i := by
  induction h with
  | root => exact Nat.le_refl root
  | child _ hc ih =>
    have hlt := hc.lt
    omega

theorem Below.trans {root r i : Nat} (h : Below root r) (hi : Below r i) : Below root i := by
  induction hi with
  | root => exact h
  | child _ hc ih => exact ih.child hc

theorem Below.parent {root c p : Nat} (h : Below root c) (hc : IsChild c p) :
    c = root ∨ Below root p := by
  cases h with
  | root => exact Or.inl rfl
  | child hq hcq => exact Or.inr (hcq.unique hc ▸ hq)

theorem Below.not_child {root c p : Nat} (hp : ¬Below root p) (hc : IsChild c p) (hne : c ≠ root) :
    ¬Below root c := by
  intro h
  rcases h.parent hc with e | hb
  · exact hne e
  · exact hp hb

theorem below_zero (i : Nat) : Below 0 i := by
  induction i using Nat.strongRecOn with
  | ind i ih =>
    by_cases hi : i = 0
    · exact hi ▸ Below.root
    · exact (ih ((i - 1) / 2) (by omega)).child (isChild_parent (by omega))

/-- the slots of the tree of `root`, among the first `len` nodes -/
def Tree (base len root x : Nat) : Prop := ∃ i, Below root i ∧ i < len ∧ x = base + i

theorem Tree.eq_of_not_below {base len root k : Nat} {f g : Nat → Value}
    (hg : Arranged (Tree base len root) f g) (hk : ¬Below root k) : g (base + k) = f (base + k) := by
  refine hg.eq_of_not fun hin => ?_
  obtain ⟨j, hj, _, e⟩ := hin
  have hkj : k = j := by omega
  exact hk (hkj ▸ hj)

/-! ## settled nodes -/

def Settled (lt : Value → Value → Bool) (base len : Nat) (f : Nat → Value) (i : Nat) : Prop :=
  ∀ c, IsChild c i → c < len → lt (f (base + i)) (f (base + c)) = false

section
variable {V : Value → Prop} {lt : Value → Value → Bool} {base len : Nat} {f g : Nat → Value}

theorem Settled.congr {i : Nat} (h : Settled lt base len f i) (hi : g (base + i) = f (base + i))
    (hc : ∀ c, IsChild c i → c < len → g (base + c) = f (base + c)) :
    Settled lt base len g i := by
  intro c hci hlen
  rw [hi, hc c hci hlen]
  exact h c hci hlen

theorem settled_of_half_le {i : Nat} (hi : len / 2 ≤ i) : Settled lt base len f i := by
  intro c hc hclen
  rcases hc with rfl | rfl <;> exact absurd hclen (by omega)

/-- what is done in the tree of `root` does not unsettle a node outside of it -/
theorem Settled.outside {root i : Nat} (h : Settled lt base len f i) (hroot : root < i)
    (hg : Arranged (Tree base len root) f g) (hi : ¬Below root i) : Settled lt base len g i := by
  refine h.congr (Tree.eq_of_not_below hg hi) fun c hc _ => ?_
  have hlt := hc.lt
  exact Tree.eq_of_not_below hg (Below.not_child hi hc (by omega))

/-- no node belongs behind the root of a heap -/
theorem root_max (hlt : StrictWeak V lt) (hV : ∀ i, i < len → V (f (base + i)))
    (h : ∀ i, Settled lt base len f i) :
    ∀ i, i < len → lt (f base) (f (base + i)) = false := by
  intro i
  induction i using Nat.strongRecOn with
  | ind i ih =>
    intro hi
    by_cases h0 : i = 0
    · subst h0
      exact hlt.irrefl _ (hV 0 hi)
    · have hp : (i - 1) / 2 < i := by omega
      have hparent := h ((i - 1) / 2) i (isChild_parent (by omega)) hi
      exact hlt.not_lt_trans (hV i hi) (hV _ (by omega)) (hV 0 (by omega)) hparent
        (ih _ hp (by omega))

end

/-! ## sifted trees and drained heaps -/

/-- what `siftDown` has done to the tree of a root: it is settled, and the root holds what it held or
what one of its children held -/
structure Sifted (lt : Value → Value → Bool) (base len root : Nat) (f g : Nat → Value) : Prop where
  arranged : Arranged (Tree base len root) f g
  settled : ∀ i, Below root i → Settled lt base len g i
  top : g (base + root) = f (base + root) ∨
    ∃ c, IsChild c root ∧ c < len ∧ g (base + root) = f (base + c)

theorem Sifted.step {V : Value → Prop} {lt : Value → Value → Bool} {base len root c : Nat}
    {f g : Nat → Value} (hlt : StrictWeak V lt) (hV : ∀ i, i < len → V (f (base + i)))
    (hbelow : ∀ i, Below root i → i ≠ root → Settled lt base len f i) (hc : IsChild c root)
    (hclen : c < len)
    (hgreatest : ∀ d, IsChild d root → d < len → lt (f (base + c)) (f (base + d)) = false)
    (hless : lt (f (base + root)) (f (base + c)) = true)
    (h : Sifted lt base len c (exchanged f (base + root) (base + c)) g) :
    Sifted lt base len root f g := by
  have hrc : root < c := hc.lt
  have hcroot : Below root c := Below.root.child hc
  have htree : ∀ x, Tree base len c x → Tree base len root x := by
    intro x hx
    obtain ⟨i, hi, hlen, e⟩ := hx
    exact ⟨i, hcroot.trans hi, hlen, e⟩
  -- outside of the tree of the child only the root has changed
  have hsame : ∀ k, ¬Below c k → g (base + k) = exchanged f (base + root) (base + c) (base + k) :=
    fun k hk => Tree.eq_of_not_below h.arranged hk
  have hnotroot : ¬Below c root := fun hb => absurd hb.le (by omega)
  have htop : g (base + root) = f (base + c) := by
    rw [hsame root hnotroot, exchanged_left]
  refine ⟨?_, ?_, Or.inr ⟨c, hc, hclen, htop⟩⟩
  · refine Arranged.trans (Arranged.exchanged f ?_ ?_) (h.arranged.mono htree)
    · exact ⟨root, Below.root, by omega, rfl⟩
    · exact ⟨c, hcroot, hclen, rfl⟩
  · intro i hi
    by_cases hic : Below c i
    · exact h.settled i hic
    · by_cases hir : i = root
      · intro d hd hdlen
        rw [hir] at hd ⊢
        rw [htop]
        by_cases hdc : d = c
        · rw [hdc]
          -- the child holds the old root now, or what one of its own children held
          rcases h.top with e | ⟨k, hk, hklen, e⟩
          · rw [e, exchanged_right]
            exact hlt.asymm (hV root (by omega)) (hV c hclen) hless
          · have hck := hk.lt
            rw [e, exchanged_of_ne f (by omega) (by omega)]
            exact hbelow c hcroot (by omega) k hk hklen
        · have hrd := hd.lt
          rw [hsame d (Below.not_child hnotroot hd hdc), exchanged_of_ne f (by omega) (by omega)]
          exact hgreatest d hd hdlen
      · have hci : i ≠ c := fun e => hic (e ▸ Below.root)
        refine (hbelow i hi hir).congr ?_ fun d hd hdlen => ?_
        · rw [hsame i hic, exchanged_of_ne f (by omega) (by omega)]
        · have hid := hd.lt
          have hle := hi.le
          have hdc : d ≠ c := fun e => hir ((e ▸ hd).unique hc)
          rw [hsame d (Below.not_child hic hd hdc), exchanged_of_ne f (by omega) (by omega)]

theorem Sifted.within {lt : Value → Value → Bool} {base len root last : Nat} {f g : Nat → Value}
    (h : Sifted lt base len root f g) (hlast : base + len ≤ last + 1) :
    Arranged (Within base last) f g := by
  refine h.arranged.mono fun x hx => ?_
  obtain ⟨i, _, hi, e⟩ := hx
  exact ⟨by omega, by omega⟩

/-- The first `last + 1` nodes are a heap, and what stands behind them, up to the slot `hi`, does not
belong before anything in front of it. -/
structure Drained (lt : Value → Value → Bool) (base last hi : Nat) (f : Nat → Value) : Prop where
  settled : ∀ i, Settled lt base (last + 1) f i
  behind : ∀ i j, base ≤ i → i < j → base + last < j → j ≤ hi → lt (f j) (f i) = false

theorem Drained.step {V : Value → Prop} {lt : Value → Value → Bool} {base last hi : Nat}
    {f g : Nat → Value} (h : Drained lt base (last + 1) hi f) (hlt : StrictWeak V lt)
    (hV : ∀ i, base ≤ i → i ≤ hi → V (f i)) (hlast : base + (last + 1) ≤ hi)
    (hg : Sifted lt base (last + 1) 0 (exchanged f base (base + (last + 1))) g) :
    Drained lt base last hi g := by
  refine ⟨fun i => hg.settled i (below_zero i), ?_⟩
  have hmax := root_max hlt (fun i hi => hV (base + i) (by omega) (by omega)) h.settled
  have hwithin : Arranged (Within base (base + (last + 1))) f g :=
    (Arranged.exchanged f ⟨by omega, by omega⟩ ⟨by omega, by omega⟩).trans (hg.within (by omega))
  have hsifted : Arranged (Within base (base + last)) (exchanged f base (base + (last + 1))) g :=
    hg.within (by omega)
  have hnew : g (base + (last + 1)) = f base := by
    rw [hsifted.eq_of_not ?_, exchanged_right]
    intro hin
    have hle := hin.2
    omega
  intro i j hi hij hj hjhi
  by_cases hjl : j = base + (last + 1)
  · rw [hjl, hnew]
    obtain ⟨k, hk, e⟩ := hwithin.exists_eq (i := i) ⟨hi, by omega⟩
    have hbase := hk.1
    have htop := hk.2
    obtain ⟨d, rfl⟩ : ∃ d, k = base + d := ⟨k - base, by omega⟩
    rw [e]
    exact hmax d (by omega)
  · have hsame : ∀ k, base + (last + 1) < k → g k = f k := fun k hk =>
      hwithin.eq_of_not fun hin => absurd hin.2 (by omega)
    rw [hsame j (by omega)]
    by_cases hil : base + (last + 1) < i
    · rw [hsame i hil]
      exact h.behind i j hi hij (by omega) hjhi
    · obtain ⟨k, hk, e⟩ := hwithin.exists_eq (i := i) ⟨hi, by omega⟩
      have hbase := hk.1
      have htop := hk.2
      rw [e]
      exact h.behind k j hbase (by omega) (by omega) hjhi

/-! ## emptying a heap step by step -/

section
variable {σ : Type} (slots : Slots σ) (base : Nat)

/-- exchange the first node with the one behind the first `last` of them, and sift it down among
these -/
def drainStep (last : Nat) : Action σ Unit := do
  slots.swap base (base + (last + 1))
  slots.siftDown base 0 (last + 1)

def drainSteps : Nat → Nat → Action σ Unit
  | last + 1, steps + 1 => do
    slots.drainStep base last
    drainSteps last steps
  | _, _ => pure ()

/-- the first loop of heap sort, and the first steps of the second -/
def heapSortSteps (len steps : Nat) : Action σ Unit := do
  slots.heapify base len (len / 2)
  slots.drainSteps base (len - 1) steps

theorem drain_eq (last : Nat) : ∀ steps,
    slots.drain base last = slots.drainSteps base last steps >>= fun _ =>
      slots.drain base (last - steps) := by
  induction last with
  | zero =>
    intro steps
    rw [Nat.zero_sub]
    rfl
  | succ last ih =>
    intro steps
    cases steps with
    | zero => rfl
    | succ steps =>
      rw [Nat.add_sub_add_right, drainSteps, bind_assoc, ← ih steps, drainStep, bind_assoc]
      rfl

/-- heap sort builds a heap and empties it, step by step -/
theorem heapSort_eq {len hi : Nat} (hlen : base + len = hi + 1) (steps : Nat) :
    slots.heapSort base hi =
      slots.heapSortSteps base len steps >>= fun _ => slots.drain base (len - 1 - steps) := by
  rw [heapSortSteps, bind_assoc, ← slots.drain_eq base (len - 1) steps, Slots.heapSort]
  rcases Nat.eq_zero_or_pos len with rfl | hpos
  · rw [show hi - base = 0 by omega]
    rfl
  · rw [show hi - base + 1 = len by omega]

end

/-! ## sifting down -/

namespace Sortable

variable {σ : Type} {slots : Slots σ} {first n : Nat} {Shows : σ → (Nat → Value) → Prop}
  {V : Value → Prop} {lt : Value → Value → Bool} {E : Error → σ → Prop}

theorem greaterChild (h : Sortable slots first n Shows V lt E) (f : Nat → Value)
    {base root len : Nat} (hbase : first ≤ base) (hlen : base + len ≤ n + 1)
    (hroot : 2 * root + 1 < len) :
    Brings Shows E f (slots.greaterChild base root len) (fun c g =>
      g = f ∧ IsChild c root ∧ c < len ∧
        ∀ d, IsChild d root → d < len → lt (f (base + c)) (f (base + d)) = false) := by
  refine h.of_values fun hV => ?_
  have hirrefl : ∀ i, i < len → lt (f (base + i)) (f (base + i)) = false :=
    fun i hi => h.strictWeak.irrefl _ (hV _ (by omega) (by omega))
  unfold Slots.greaterChild
  by_cases hc : 2 * root + 1 + 1 < len
  · simp only [if_pos hc]
    refine Brings.bind_known (h.lessAt f ⟨by omega, by omega⟩ ⟨by omega, by omega⟩) ?_
    refine Brings.ite (fun hless => Brings.pure ⟨rfl, Or.inr rfl, hc, ?_⟩)
      fun hless => Brings.pure ⟨rfl, Or.inl rfl, hroot, ?_⟩
    · intro d hd hdlen
      rcases hd with rfl | rfl
      · exact h.strictWeak.asymm (hV _ (by omega) (by omega)) (hV _ (by omega) (by omega)) hless
      · exact hirrefl _ hdlen
    · intro d hd hdlen
      rcases hd with rfl | rfl
      · exact hirrefl _ hdlen
      · exact hless
  · simp only [if_neg hc]
    refine Brings.pure ⟨rfl, Or.inl rfl, hroot, ?_⟩
    intro d hd hdlen
    rcases hd with rfl | rfl
    · exact hirrefl _ hdlen
    · exact absurd hdlen hc

theorem siftDownWithin (h : Sortable slots first n Shows V lt E) {base len : Nat}
    (hbase : first ≤ base) (hlen : base + len ≤ n + 1) (steps : Nat) :
    ∀ root f, len ≤ steps + root →
      (∀ i, Below root i → i ≠ root → Settled lt base len f i) →
      Brings Shows E f (slots.siftDownWithin base len steps root)
        (fun _ g => Sifted lt base len root f g) := by
  -- a root without children among the first `len` nodes is settled
  have hleaf : ∀ root f, ¬2 * root + 1 < len →
      (∀ i, Below root i → i ≠ root → Settled lt base len f i) →
      Sifted lt base len root f f := by
    intro root f hroot hf
    refine ⟨Arranged.refl _ f, fun i hi => ?_, Or.inl rfl⟩
    by_cases hir : i = root
    · intro c hc hclen
      rcases hc with rfl | rfl <;> exact absurd hclen (by omega)
    · exact hf i hi hir
  induction steps with
  | zero =>
    intro root f hsteps hf
    exact Brings.pure (hleaf root f (by omega) hf)
  | succ steps ih =>
    intro root f hsteps hf
    refine h.of_values fun hV => ?_
    have hVf : ∀ i, i < len → V (f (base + i)) := fun i hi => hV _ (by omega) (by omega)
    unfold Slots.siftDownWithin
    by_cases hroot : 2 * root + 1 < len
    · simp only [if_pos hroot]
      refine Brings.bind (h.greaterChild f hbase hlen hroot) fun c g hchild => ?_
      obtain ⟨rfl, hc, hclen, hgreatest⟩ := hchild
      have hrc := hc.lt
      refine Brings.bind_known (h.lessAt _ ⟨by omega, by omega⟩ ⟨by omega, by omega⟩) ?_
      refine Brings.ite (fun hless => ?_) fun hless => Brings.pure ⟨Arranged.refl _ _, ?_, Or.inl rfl⟩
      · refine Brings.bind_to (h.exchange _ ⟨by omega, by omega⟩ ⟨by omega, by omega⟩) fun _ => ?_
        refine (ih c _ (by omega) fun i hi hic => ?_).mono fun _ g hg =>
          hg.step h.strictWeak hVf hf hc hclen hgreatest hless
        have hci := hi.le
        refine (hf i ((Below.root.child hc).trans hi) (by omega)).congr ?_ fun d hd _ => ?_
        · exact exchanged_of_ne _ (by omega) (by omega)
        · have hid := hd.lt
          exact exchanged_of_ne _ (by omega) (by omega)
      · intro i hi
        by_cases hir : i = root
        · intro d hd hdlen
          rw [hir] at hd ⊢
          exact h.strictWeak.not_lt_trans (hVf d hdlen) (hVf c hclen) (hVf root (by omega))
            (hgreatest d hd hdlen) hless
        · exact hf i hi hir
    · simp only [if_neg hroot]
      exact Brings.pure (hleaf root f hroot hf)

theorem siftDown (h : Sortable slots first n Shows V lt E) (f : Nat → Value) {base root len : Nat}
    (hbase : first ≤ base) (hlen : base + len ≤ n + 1)
    (hf : ∀ i, Below root i → i ≠ root → Settled lt base len f i) :
    Brings Shows E f (slots.siftDown base root len) (fun _ g => Sifted lt base len root f g) :=
  h.siftDownWithin hbase hlen len root f (Nat.le_add_right len root) hf

/-! ## building a heap and emptying it -/

theorem heapify (h : Sortable slots first n Shows V lt E) {base len last : Nat}
    (hbase : first ≤ base) (hlen : base + len ≤ last + 1) (hlast : last ≤ n) (root : Nat) :
    ∀ f, (∀ i, root ≤ i → Settled lt base len f i) →
      Brings Shows E f (slots.heapify base len root) (fun _ g =>
        Arranged (Within base last) f g ∧ ∀ i, Settled lt base len g i) := by
  induction root with
  | zero => exact fun f hf => Brings.pure ⟨Arranged.refl _ f, fun i => hf i (Nat.zero_le i)⟩
  | succ root ih =>
    intro f hf
    refine Brings.bind (h.siftDown f hbase (by omega) fun i hi hir => ?_) ?_
    · have hri := hi.le
      exact hf i (by omega)
    · intro _ g hg
      refine (ih g fun i hi => ?_).mono fun _ k hk => ?_
      · by_cases hb : Below root i
        · exact hg.settled i hb
        · have hir : i ≠ root := fun e => hb (e ▸ Below.root)
          exact (hf i (by omega)).outside (by omega) hg.arranged hb
      · exact ⟨(hg.within hlen).trans hk.1, hk.2⟩

theorem drainStep (h : Sortable slots first n Shows V lt E) {base hi last : Nat}
    (hbase : first ≤ base) (hhi : hi ≤ n) (f : Nat → Value) (hlast : base + (last + 1) ≤ hi)
    (hf : Drained lt base (last + 1) hi f) :
    Brings Shows E f (slots.drainStep base last)
      (fun _ g => Arranged (Within base hi) f g ∧ Drained lt base last hi g) := by
  refine h.of_values fun hV => ?_
  refine Brings.bind_to (h.exchange f ⟨hbase, by omega⟩ ⟨by omega, by omega⟩) fun _ => ?_
  refine (h.siftDown _ hbase (by omega) fun i _ hi0 => ?_).mono fun _ g hg => ⟨?_, ?_⟩
  · intro c hc hclen
    have hic := hc.lt
    rw [exchanged_of_ne f (by omega) (by omega), exchanged_of_ne f (by omega) (by omega)]
    exact hf.settled i c hc (by omega)
  · refine Arranged.trans ?_ (hg.within (by omega))
    exact Arranged.exchanged f ⟨by omega, by omega⟩ ⟨by omega, hlast⟩
  · exact hf.step h.strictWeak (fun i hi hih => hV i (by omega) (by omega)) hlast hg

theorem drainSteps (h : Sortable slots first n Shows V lt E) {base hi : Nat} (hbase : first ≤ base)
    (hhi : hi ≤ n) (last : Nat) : ∀ steps f, base + last ≤ hi → Drained lt base last hi f →
      Brings Shows E f (slots.drainSteps base last steps)
        (fun _ g => Arranged (Within base hi) f g ∧ Drained lt base (last - steps) hi g) := by
  induction last with
  | zero =>
    intro steps f _ hf
    refine Brings.pure ⟨Arranged.refl _ f, ?_⟩
    rw [Nat.zero_sub]
    exact hf
  | succ last ih =>
    intro steps f hlast hf
    cases steps with
    | zero => exact Brings.pure ⟨Arranged.refl _ f, hf⟩
    | succ steps =>
      refine Brings.bind (h.drainStep hbase hhi f hlast hf) fun _ g hg => ?_
      refine (ih steps g (by omega) hg.2).mono fun _ k hk => ⟨hg.1.trans hk.1, ?_⟩
      rw [Nat.add_sub_add_right]
      exact hk.2

theorem heapSortSteps (h : Sortable slots first n Shows V lt E) {base len hi : Nat}
    (hbase : first ≤ base) (hlen : base + len = hi + 1) (hhi : hi ≤ n) (steps : Nat)
    (f : Nat → Value) :
    Brings Shows E f (slots.heapSortSteps base len steps)
      (fun _ g => Arranged (Within base hi) f g ∧ Drained lt base (len - 1 - steps) hi g) := by
  refine Brings.bind (h.heapify hbase (Nat.le_of_eq hlen) hhi _ f fun i hi =>
    settled_of_half_le hi) fun _ g hg => ?_
  rcases Nat.eq_zero_or_pos len with rfl | hpos
  · refine Brings.pure ⟨hg.1, fun i c hc hclen => ?_, fun i j _ _ hj hjhi => absurd hj (by omega)⟩
    have hic := hc.lt
    exact absurd hclen (by omega)
  · have hdrained : Drained lt base (len - 1) hi g := by
      refine ⟨?_, fun i j _ _ hj hjhi => absurd hj (by omega)⟩
      rw [Nat.sub_add_cancel hpos]
      exact hg.2
    refine (h.drainSteps hbase hhi _ steps g (by omega) hdrained).mono fun _ k hk => ?_
    exact ⟨hg.1.trans hk.1, hk.2⟩

theorem heapSort (h : Sortable slots first n Shows V lt E) (f : Nat → Value) {lo hi : Nat}
    (hlo : first ≤ lo) (hle : lo ≤ hi) (hhi : hi ≤ n) :
    Brings Shows E f (slots.heapSort lo hi)
      (fun _ g => Arranged (Within lo hi) f g ∧ Ordered lt lo hi g) := by
  have hlen : lo + (hi - lo + 1) = hi + 1 := by omega
  rw [slots.heapSort_eq lo hlen (hi - lo)]
  refine Brings.bind (h.heapSortSteps hlo (by omega) hhi _ f) fun _ g hg => ?_
  rw [Nat.add_sub_cancel, Nat.sub_self] at hg ⊢
  exact Brings.pure ⟨hg.1, fun i j hi hij hj => hg.2.behind i j hi hij (by omega) hj⟩

end Sortable

end Slots

end ScriptTables
