import ScriptTables.Proofs.Sort.Ordering

/-!
# Some positions of a table

A step of a sort works on some positions of a list, `lo, ..., hi`.  Whatever else the list holds, a
comparator has to answer for the values of these positions only, and only after questions and exchanges
among them.  Such a step can then be described by what it does to the elements of the table.

* `Slots.MeetsWithin`         the states that asking and exchanging at some slots lead to;
* `AnsweringWithin`           a comparator that answers for some positions as an order tells;
* `Table.RearrangedAt`        the values at some places permuted, and nothing else changed;
* `KeptWithin`                what is true of all states on the way;
* `sortable_within`           the positions can be sorted;
* `ends_of_brings`            what a step does to the elements is what it does to the table.
-/

namespace ScriptTables

/-- the states that follow on one another when values with `V` are asked about and the slots
`lo, ..., hi` are exchanged, in any order and without a failure so far -/
inductive Slots.MeetsWithin {σ : Type} (slots : Slots σ) (lo hi : Nat) (V : Value → Prop) (s : σ) :
    σ → Prop
  | start : MeetsWithin slots lo hi V s s
  | asked {t t' : σ} {a b : Value} {less : Bool} : MeetsWithin slots lo hi V s t → V a → V b →
      (slots.less a b).run t = .ok less t' → MeetsWithin slots lo hi V s t'
  | exchanged {t t' : σ} {i j : Nat} : MeetsWithin slots lo hi V s t → Within lo hi i →
      Within lo hi j → (slots.swap i j).run t = .ok () t' → MeetsWithin slots lo hi V s t'

/-- a question about two elements at `lo, ..., hi` is answered as `lt` tells and leaves the table as it
is and without hooks, whatever was asked about these elements and exchanged among them before -/
def AnsweringWithin (call : Caller) (id : TableId) (comparator : Option Value)
    (lt : Value → Value → Bool) (lo hi : Nat) (m : Machine) : Prop :=
  let elements := (m.heap.table id).range lo hi
  ∀ t, Slots.MeetsWithin (listSlots call id comparator) lo hi (· ∈ elements) m t →
    ∀ a ∈ elements, ∀ b ∈ elements,
      ∃ t', ((Machine.host call).precedes comparator a b).run t = .ok (lt a b) t' ∧
        t'.heap.table id = t.heap.table id ∧ (t.heap.Plain id → t'.heap.Plain id)

/-- the values at the places in `D` are permuted; what is under any other key, and the metatable, are
as they were -/
structure Table.RearrangedAt (D : Nat → Prop) (t t' : Table) : Prop where
  elements : Arranged D t.element t'.element
  others : ∀ k : Key, (∀ i, D i → k ≠ .integer (Int64.ofInt (i : Nat))) → t'.getKey k = t.getKey k
  metatable : t'.metatable = t.metatable

section
variable {call : Caller} {id : TableId} {comparator : Option Value} {lt : Value → Value → Bool}
  {lo hi : Nat} {m t t' : Machine}

theorem Table.range_subset {t : Table} {n : Nat} (hlo : 1 ≤ lo) (hhi : hi ≤ n) {v : Value}
    (hv : v ∈ t.range lo hi) : v ∈ t.range 1 n := by
  obtain ⟨i, hli, hih, e⟩ := Table.mem_range.mp hv
  exact Table.mem_range.mpr ⟨i, by omega, by omega, e⟩

theorem Slots.MeetsWithin.meets {σ : Type} {slots : Slots σ} {n : Nat} {V V' : Value → Prop}
    {s t : σ} (h : MeetsWithin slots lo hi V s t) (hlo : 1 ≤ lo) (hhi : hi ≤ n)
    (hV : ∀ v, V v → V' v) : Meets slots n V' s t := by
  induction h with
  | start => exact Meets.start
  | asked _ ha hb hr ih => exact ih.asked (hV _ ha) (hV _ hb) hr
  | exchanged _ hi hj hr ih =>
    have hli := hi.1
    have hih := hi.2
    have hlj := hj.1
    have hjh := hj.2
    exact ih.exchanged (by omega) (by omega) (by omega) (by omega) hr

theorem Answering.within (h : Answering call id comparator lt m) (hlo : 1 ≤ lo)
    (hhi : hi ≤ (m.heap.table id).count) : AnsweringWithin call id comparator lt lo hi m :=
  fun t ht a ha b hb => h t (ht.meets hlo hhi fun _ => Table.range_subset hlo hhi) a
    (Table.range_subset hlo hhi ha) b (Table.range_subset hlo hhi hb)

/-! ## on the way -/

/-- from `m` to `t` the elements at `lo, ..., hi` have been permuted, and nothing else has happened to
the table -/
structure KeptWithin (id : TableId) (lo hi : Nat) (m t : Machine) : Prop where
  kept : Kept id hi m t
  within : Arranged (Slots.Within lo hi) (m.heap.table id).element (t.heap.table id).element

namespace KeptWithin

theorem refl (hp : m.heap.Plain id) : KeptWithin id lo hi m m := ⟨Kept.refl hp, Arranged.refl _ _⟩

theorem of_table_eq (h : KeptWithin id lo hi m t) (htable : t'.heap.table id = t.heap.table id)
    (hp : t'.heap.Plain id) : KeptWithin id lo hi m t' :=
  ⟨h.kept.of_table_eq htable hp, htable ▸ h.within⟩

theorem exchange (h : KeptWithin id lo hi m t) (hlo : 1 ≤ lo) (hfits : hi < 2 ^ 63) {i j : Nat}
    (hin : Slots.Within lo hi i) (hjn : Slots.Within lo hi j) :
    KeptWithin id lo hi m (t.exchange id i j) where
  kept := h.kept.exchange hfits ⟨Nat.le_trans hlo hin.1, hin.2⟩ ⟨Nat.le_trans hlo hjn.1, hjn.2⟩
  within := by
    have hih := hin.2
    have hjh := hjn.2
    rw [element_exchange h.kept.plain (by omega) (by omega)]
    exact h.within.trans (Arranged.exchanged _ hin hjn)

theorem element_mem (h : KeptWithin id lo hi m t) {i : Nat} (hin : Slots.Within lo hi i) :
    (t.heap.table id).element i ∈ (m.heap.table id).range lo hi := by
  obtain ⟨j, hj, e⟩ := h.within.exists_eq hin
  exact Table.mem_range.mpr ⟨j, hj.1, hj.2, e.symm⟩

theorem rearranged (h : KeptWithin id lo hi m t) :
    (m.heap.table id).Rearranged lo hi (t.heap.table id) := h.kept.rearranged h.within

theorem rearrangedAt (h : KeptWithin id lo hi m t) {D : Nat → Prop}
    (hD : Arranged D (m.heap.table id).element (t.heap.table id).element) :
    (m.heap.table id).RearrangedAt D (t.heap.table id) where
  elements := hD
  others k hk := by
    by_cases hin : ∃ i : Int64, 1 ≤ i.toInt ∧ i.toInt ≤ hi ∧ k = .integer i
    · obtain ⟨i, hi₁, hi₂, rfl⟩ := hin
      have hplace : i.toInt = (i.toInt.toNat : Nat) := by omega
      have hout : ¬D i.toInt.toNat := by
        intro hd
        refine hk _ hd (congrArg Key.integer ?_)
        rw [← hplace, Int64.ofInt_toInt]
      have hsame := hD.eq_of_not hout
      rw [Table.element_eq _ hplace, Table.element_eq _ hplace] at hsame
      exact hsame
    · exact h.kept.others k fun i hi₁ hi₂ e => hin ⟨i, hi₁, hi₂, e⟩
  metatable := h.kept.metatable

end KeptWithin

/-! ## steps of a sort -/

/-- the elements at `lo, ..., hi` are `f`, and nothing but asking and exchanging led here -/
def ShowsWithin (call : Caller) (id : TableId) (comparator : Option Value) (lo hi : Nat)
    (m t : Machine) (f : Nat → Value) : Prop :=
  (KeptWithin id lo hi m t ∧ Slots.MeetsWithin (listSlots call id comparator) lo hi
    (· ∈ (m.heap.table id).range lo hi) m t) ∧ (t.heap.table id).element = f

theorem sortable_within (hlo : 1 ≤ lo) (hhi : hi ≤ (m.heap.table id).count)
    (hlt : StrictWeak (· ∈ (m.heap.table id).range lo hi) lt)
    (hask : AnsweringWithin call id comparator lt lo hi m) :
    Slots.Sortable (listSlots call id comparator) lo hi
      (fun t f => ShowsWithin call id comparator lo hi m t f)
      (· ∈ (m.heap.table id).range lo hi) lt NoLink := by
  have hfits : hi < 2 ^ 63 := Nat.lt_of_le_of_lt hhi (m.heap.table id).count_lt
  refine sortable_positions hfits hlt (fun t ht => ht.1.kept.plain)
    (fun t ht i hi hin => ht.1.element_mem ⟨hi, hin⟩) (fun t i j ht hi hj hswap => ?_)
    fun t a b ht ha hb => ?_
  · exact ⟨ht.1.exchange hlo hfits hi hj, ht.2.exchanged hi hj hswap⟩
  · obtain ⟨t', hless, htable, hplain⟩ := hask t ht.2 a ha b hb
    exact ⟨t', hless, htable, ht.1.of_table_eq htable (hplain ht.1.kept.plain),
      ht.2.asked ha hb hless⟩

theorem ends_of_brings {α : Type} {x : EvalM α} {Q : α → (Nat → Value) → Prop}
    (hp : m.heap.Plain id)
    (h : Slots.Brings (fun t f => ShowsWithin call id comparator lo hi m t f) NoLink
      (m.heap.table id).element x Q) :
    Ends (· = m) x
      (fun a t => Q a (t.heap.table id).element ∧ KeptWithin id lo hi m t) NoLink := by
  refine Ends.mono h (fun s hs => ?_) (fun a t ht => ?_) fun _ _ he => he
  · subst hs
    exact ⟨⟨KeptWithin.refl hp, Slots.MeetsWithin.start⟩, rfl⟩
  · obtain ⟨g, hg, hshows⟩ := ht
    exact ⟨hshows.2 ▸ hg, hshows.1.1⟩

end

end ScriptTables
