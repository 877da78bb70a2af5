import ScriptTables.Proofs.Sort.Positions

/-!
# What the steps of a sort leave behind

A sort partitions a part of a list, and sifts values down in a heap that lies in one.  Both touch this
part only, and of the order it is enough that it is one of the values there.  For a plain table the one
failure is that no link of a chain may be looked at.

* `fenced`             a list to try them on;
* `partition_splits`   a partition puts the pivot where it belongs, and neither end is that place;
* `heap_sifted`        a sifted tree is a heap, and so is what each step of heap sort has left to empty.
-/

namespace ScriptTables

/-- a list of five integers, of which the first and the last would be out of place in any order of the
others -/
def fenced : Machine where
  heap := ({} : Heap).pushTable (.ofList [.integer 5, .integer 1, .integer 3, .integer 2, .integer 0])
  globals := ⟨0⟩
  limits := {}

theorem plain_fenced : fenced.heap.Plain ⟨0⟩ := ⟨Table.WellFormed.ofList _, rfl, rfl⟩

theorem integer_of_mem_fenced :
    ∀ v ∈ (fenced.heap.table ⟨0⟩).range 1 (fenced.heap.table ⟨0⟩).count,
      ∃ n : Int64, v = .integer n := by
  have helements : (fenced.heap.table ⟨0⟩).range 1 (fenced.heap.table ⟨0⟩).count
      = [.integer 5, .integer 1, .integer 3, .integer 2, .integer 0] := by decide
  rw [helements]
  simp

theorem strictWeak_fenced (lo hi : Nat) (hlo : 1 ≤ lo) (hhi : hi ≤ 5) :
    StrictWeak (· ∈ (fenced.heap.table ⟨0⟩).range lo hi) below :=
  strictWeak_integer.mono fun v hv => integer_of_mem_fenced v (Table.range_subset hlo hhi hv)

theorem answering_fenced (lo hi : Nat) (hlo : 1 ≤ lo) (hhi : hi ≤ 5) :
    AnsweringWithin EvalM.call ⟨0⟩ none below lo hi fenced :=
  (answering_integers integer_of_mem_fenced).within hlo hhi

/-- **A partition splits its range around the place that it returns.** -/
theorem partition_splits (call : Caller) (id : TableId) (comparator : Option Value)
    (lt : Value → Value → Bool) (m : Machine) (lo hi : Nat) (hp : m.heap.Plain id) (hlo : 1 ≤ lo)
    (hle : lo + 2 ≤ hi) (hhi : hi ≤ (m.heap.table id).count)
    (hlt : StrictWeak (· ∈ (m.heap.table id).range lo hi) lt)
    (hask : AnsweringWithin call id comparator lt lo hi m) :
    Ends (· = m) ((listSlots call id comparator).partition lo hi)
      (fun p m' => (lo < p ∧ p < hi) ∧ Slots.Split lt lo p hi (m'.heap.table id).element ∧
        (m.heap.table id).Rearranged lo hi (m'.heap.table id))
      NoLink := by
  have hsplit := (sortable_within hlo hhi hlt hask).partition (m.heap.table id).element
    (Nat.le_refl lo) hle (Nat.le_refl hi)
  refine (ends_of_brings hp hsplit).mono (fun _ hs => hs) (fun p m' hm' => ?_) fun _ _ he => he
  exact ⟨hm'.1.1, hm'.1.2.2, hm'.2.rearranged⟩

/-- the three elements in the middle of five -/
theorem partition_splits_fenced :
    fenced.heap.Plain ⟨0⟩ ∧ 1 ≤ 2 ∧ 2 + 2 ≤ 4 ∧ 4 ≤ (fenced.heap.table ⟨0⟩).count ∧
    StrictWeak (· ∈ (fenced.heap.table ⟨0⟩).range 2 4) below ∧
    AnsweringWithin EvalM.call ⟨0⟩ none below 2 4 fenced ∧
    Ends (· = fenced) ((listSlots EvalM.call ⟨0⟩ none).partition 2 4)
      (fun p m' => (2 < p ∧ p < 4) ∧ Slots.Split below 2 p 4 (m'.heap.table ⟨0⟩).element ∧
        (fenced.heap.table ⟨0⟩).Rearranged 2 4 (m'.heap.table ⟨0⟩))
      NoLink :=
  have hlt := strictWeak_fenced 2 4 (by decide) (by decide)
  have hask := answering_fenced 2 4 (by decide) (by decide)
  ⟨plain_fenced, by decide, by decide, by decide, hlt, hask,
    partition_splits EvalM.call ⟨0⟩ none below fenced 2 4 plain_fenced (by decide) (by decide)
      (by decide) hlt hask⟩

/-- **Sifting down the root of a tree, settled but for its root, settles it and touches nothing else.**
So the first loop of heap sort builds a heap, and each step of the second leaves a heap behind which the
greater values stand in order. -/
theorem heap_sifted (call : Caller) (id : TableId) (comparator : Option Value)
    (lt : Value → Value → Bool) (m : Machine) (base len hi : Nat) (hp : m.heap.Plain id)
    (hbase : 1 ≤ base) (hlen : base + len = hi + 1) (hhi : hi ≤ (m.heap.table id).count)
    (hlt : StrictWeak (· ∈ (m.heap.table id).range base hi) lt)
    (hask : AnsweringWithin call id comparator lt base hi m) :
    (∀ root, (∀ i, Slots.Below root i → i ≠ root →
        Slots.Settled lt base len (m.heap.table id).element i) →
      Ends (· = m) ((listSlots call id comparator).siftDown base root len)
        (fun _ m' =>
          (∀ i, Slots.Below root i → Slots.Settled lt base len (m'.heap.table id).element i) ∧
          (m.heap.table id).RearrangedAt (Slots.Tree base len root) (m'.heap.table id))
        NoLink) ∧
    Ends (· = m) ((listSlots call id comparator).heapify base len (len / 2))
      (fun _ m' => (∀ i, Slots.Settled lt base len (m'.heap.table id).element i) ∧
        (m.heap.table id).Rearranged base hi (m'.heap.table id))
      NoLink ∧
    (∀ last, base + (last + 1) ≤ hi →
      Slots.Drained lt base (last + 1) hi (m.heap.table id).element →
      Ends (· = m) ((listSlots call id comparator).drainStep base last)
        (fun _ m' => Slots.Drained lt base last hi (m'.heap.table id).element ∧
          (m.heap.table id).Rearranged base hi (m'.heap.table id))
        NoLink) ∧
    ∀ steps,
      (listSlots call id comparator).heapSort base hi = (do
        (listSlots call id comparator).heapSortSteps base len steps
        (listSlots call id comparator).drain base (len - 1 - steps)) ∧
      Ends (· = m) ((listSlots call id comparator).heapSortSteps base len steps)
        (fun _ m' => Slots.Drained lt base (len - 1 - steps) hi (m'.heap.table id).element ∧
          (m.heap.table id).Rearranged base hi (m'.heap.table id))
        NoLink := by
  have hsortable := sortable_within hbase hhi hlt hask
  have hlast : base + len ≤ hi + 1 := Nat.le_of_eq hlen
  refine ⟨fun root hroot => ?_, ?_, fun last hbelow hdrained => ?_, fun steps => ⟨?_, ?_⟩⟩
  · have hsift := hsortable.siftDown _ (Nat.le_refl base) hlast hroot
    refine (ends_of_brings hp hsift).mono (fun _ hs => hs) (fun _ m' hm' => ?_) fun _ _ he => he
    exact ⟨hm'.1.settled, hm'.2.rearrangedAt hm'.1.arranged⟩
  · have hheap := hsortable.heapify (Nat.le_refl base) hlast (Nat.le_refl hi) (len / 2)
      (m.heap.table id).element fun i hi => Slots.settled_of_half_le hi
    refine (ends_of_brings hp hheap).mono (fun _ hs => hs) (fun _ m' hm' => ?_) fun _ _ he => he
    exact ⟨hm'.1.2, hm'.2.rearranged⟩
  · have hstep := hsortable.drainStep (Nat.le_refl base) (Nat.le_refl hi) _ hbelow hdrained
    refine (ends_of_brings hp hstep).mono (fun _ hs => hs) (fun _ m' hm' => ?_) fun _ _ he => he
    exact ⟨hm'.1.2, hm'.2.rearranged⟩
  · exact (listSlots call id comparator).heapSort_eq base hlen steps
  · have hsteps := hsortable.heapSortSteps (Nat.le_refl base) hlen (Nat.le_refl hi) steps
      (m.heap.table id).element
    refine (ends_of_brings hp hsteps).mono (fun _ hs => hs) (fun _ m' hm' => ?_) fun _ _ he => he
    exact ⟨hm'.1.2, hm'.2.rearranged⟩

/-- The same three elements as nodes, of which the leaves are settled from the start.  The last two of
them are a heap already. -/
theorem heap_sifted_fenced :
    fenced.heap.Plain ⟨0⟩ ∧ 1 ≤ 2 ∧ 2 + 3 = 4 + 1 ∧ 4 ≤ (fenced.heap.table ⟨0⟩).count ∧
    StrictWeak (· ∈ (fenced.heap.table ⟨0⟩).range 2 4) below ∧
    AnsweringWithin EvalM.call ⟨0⟩ none below 2 4 fenced ∧
    (∀ i, Slots.Below 0 i → i ≠ 0 →
      Slots.Settled below 2 3 (fenced.heap.table ⟨0⟩).element i) ∧
    Ends (· = fenced) ((listSlots EvalM.call ⟨0⟩ none).siftDown 2 0 3)
      (fun _ m' =>
        (∀ i, Slots.Below 0 i → Slots.Settled below 2 3 (m'.heap.table ⟨0⟩).element i) ∧
        (fenced.heap.table ⟨0⟩).RearrangedAt (Slots.Tree 2 3 0) (m'.heap.table ⟨0⟩))
      NoLink ∧
    Slots.Drained below 3 1 4 (fenced.heap.table ⟨0⟩).element ∧
    Ends (· = fenced) ((listSlots EvalM.call ⟨0⟩ none).drainStep 3 0)
      (fun _ m' => Slots.Drained below 3 0 4 (m'.heap.table ⟨0⟩).element ∧
        (fenced.heap.table ⟨0⟩).Rearranged 3 4 (m'.heap.table ⟨0⟩))
      NoLink := by
  have hlt := strictWeak_fenced 2 4 (by decide) (by decide)
  have hask := answering_fenced 2 4 (by decide) (by decide)
  have hleaves : ∀ i, Slots.Below 0 i → i ≠ 0 →
      Slots.Settled below 2 3 (fenced.heap.table ⟨0⟩).element i :=
    fun i _ hi => Slots.settled_of_half_le (by omega)
  have hdrained : Slots.Drained below 3 1 4 (fenced.heap.table ⟨0⟩).element := by
    refine ⟨fun i => ?_, fun i j _ _ hj hj4 => absurd hj (by omega)⟩
    by_cases hi : i = 0
    · rw [hi]
      intro c hc hclen
      obtain rfl : c = 1 := by have hlt := hc.lt; omega
      decide
    · exact Slots.settled_of_half_le (by omega)
  refine ⟨plain_fenced, by decide, by decide, by decide, hlt, hask, hleaves, ?_, hdrained, ?_⟩
  · exact (heap_sifted EvalM.call ⟨0⟩ none below fenced 2 3 4 plain_fenced (by decide) (by decide)
      (by decide) hlt hask).1 0 hleaves
  · exact (heap_sifted EvalM.call ⟨0⟩ none below fenced 3 2 4 plain_fenced (by decide) (by decide)
      (by decide) (strictWeak_fenced 3 4 (by decide) (by decide))
      (answering_fenced 3 4 (by decide) (by decide))).2.2.1 0 (by decide) hdrained

end ScriptTables
