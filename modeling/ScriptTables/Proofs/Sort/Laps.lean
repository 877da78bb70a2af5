import ScriptTables.Proofs.Sort.Parallel

/-!
# The bounds of the loops of a sort

Two loops of the sort have no count of their own: the cursors of a partition run until they have passed
each other, and a value sinks in a heap until it is in place.  Both are given a number of turns, and
here is why that number never cuts them short: however many turns more they were given, they do the
same.  That is a matter of the cursors and node numbers alone, so it is true of slots that answer
anything, fail, or change while the sort runs.

* `bind_congr_of`            two ways to go on that agree on all results that are possible;
* `Slots.cross_add`          turns of the cursors;
* `Slots.siftDownWithin_add` turns of a sinking value;
* `Slots.lapsSuffice`        both.
-/

namespace ScriptTables

section
variable {σ α β : Type}

theorem bind_congr_of {x : Action σ α} {M : α → Prop} {k l : α → Action σ β}
    (hx : Ends (fun _ => True) x (fun a _ => M a ∧ True) fun _ _ => True)
    (hkl : ∀ a, M a → k a = l a) : x >>= k = x >>= l := by
  funext s
  show (x >>= k).run s = (x >>= l).run s
  have h := hx s trivial
  rw [run_bind, run_bind]
  cases hr : x.run s with
  | ok a s' =>
    rw [hr] at h
    show (k a).run s' = (l a).run s'
    rw [hkl a h.1]
  | error e s' => rfl

end

namespace Slots

section
variable {σ : Type} (slots : Slots σ)

theorem confined_always (n : Nat) :
    slots.Confined n (fun _ => True) (fun _ => True) fun _ _ => True where
  get _ _ _ := Ends.of_always (fun _ _ => ⟨trivial, trivial⟩) fun _ _ => trivial
  swap _ _ _ _ _ _ := Ends.of_always (fun _ _ => trivial) fun _ _ => trivial
  less _ _ _ _ := Ends.of_always (fun _ _ => trivial) fun _ _ => trivial

/-! ## cursors -/

theorem ends_scanUp (pivot : Value) (room : Nat) {i : Nat} (hi : 1 ≤ i) :
    Ends (fun _ => True) (slots.scanUp pivot room i)
      (fun i' _ => (i ≤ i' ∧ i' ≤ i + room) ∧ True) fun _ _ => True := by
  have hscan := (slots.confined_always (i + room)).parallel.scanUp (p := pivot) ⟨rfl, trivial⟩ room i
    hi (by omega)
  exact alike_self.mp hscan

theorem ends_scanDown (pivot : Value) {room j : Nat} (hj : room < j) :
    Ends (fun _ => True) (slots.scanDown pivot room j)
      (fun j' _ => (j' ≤ j ∧ j ≤ j' + room) ∧ True) fun _ _ => True := by
  have hscan := (slots.confined_always j).parallel.scanDown (p := pivot) ⟨rfl, trivial⟩ room j hj
    (Nat.le_refl j)
  exact alike_self.mp hscan

/-- The left cursor has gone up by one slot at least in each turn, and once it is at the top the right
one is below it. -/
theorem cross_add (pivot : Value) {lo top : Nat} (hlo : 1 ≤ lo) (laps more : Nat) :
    ∀ i j, lo ≤ i → i < top → lo < j → j ≤ top → top ≤ laps + i →
      slots.cross pivot lo top (laps + more) i j = slots.cross pivot lo top laps i j := by
  induction laps with
  | zero =>
    intro i j _ hi _ _ hlaps
    exact absurd hlaps (by omega)
  | succ laps ih =>
    intro i j hli hi hlj hj hlaps
    rw [Nat.add_right_comm]
    unfold cross
    refine bind_congr_of (slots.ends_scanUp pivot _ (Nat.succ_pos i)) fun i' hi' => ?_
    refine bind_congr_of (slots.ends_scanDown pivot (by omega)) fun j' hj' => ?_
    by_cases hpassed : j' < i'
    · rw [if_pos hpassed, if_pos hpassed]
    · rw [if_neg hpassed, if_neg hpassed]
      have hnext := ih i' j' (by omega) (by omega) (by omega) (by omega) (by omega)
      rw [hnext]

/-! ## heaps -/

theorem ends_greaterChild {base root len : Nat} (hbase : 1 ≤ base) (hroot : 2 * root + 1 < len) :
    Ends (fun _ => True) (slots.greaterChild base root len)
      (fun child _ => (root < child ∧ child < len) ∧ True) fun _ _ => True := by
  have hchild := (slots.confined_always (base + len)).parallel.greaterChild hbase (by omega) hroot
  exact alike_self.mp hchild

/-- The number of the node has gone up by one at least in each turn. -/
theorem siftDownWithin_add {base : Nat} (hbase : 1 ≤ base) (len steps more : Nat) :
    ∀ root, len ≤ steps + root →
      slots.siftDownWithin base len (steps + more) root = slots.siftDownWithin base len steps root := by
  induction steps with
  | zero =>
    intro root hroot
    cases more with
    | zero => rfl
    | succ more =>
      have hleaf : ¬2 * root + 1 < len := by omega
      rw [Nat.zero_add]
      show (if 2 * root + 1 < len then _ else pure () : Action σ Unit) = pure ()
      rw [if_neg hleaf]
  | succ steps ih =>
    intro root hroot
    rw [Nat.add_right_comm]
    unfold siftDownWithin
    by_cases hparent : 2 * root + 1 < len
    · rw [if_pos hparent, if_pos hparent]
      refine bind_congr_of (slots.ends_greaterChild hbase hparent) fun child hchild => ?_
      rw [ih child (by omega)]
    · rw [if_neg hparent, if_neg hparent]

/-! ## all of them -/

/-- the turns that the loops of a sort are given are enough: with more they do the same -/
structure LapsSuffice : Prop where
  cross : ∀ pivot lo hi more, 1 ≤ lo → lo + 2 ≤ hi →
    slots.cross pivot lo (hi - 1) (hi - lo + more) lo (hi - 1)
      = slots.cross pivot lo (hi - 1) (hi - lo) lo (hi - 1)
  siftDown : ∀ base root len more, 1 ≤ base →
    slots.siftDownWithin base len (len + more) root = slots.siftDown base root len

theorem lapsSuffice : slots.LapsSuffice where
  cross pivot lo hi more hlo hle := slots.cross_add pivot hlo _ more lo (hi - 1) (Nat.le_refl lo)
    (by omega) (by omega) (Nat.le_refl _) (by omega)
  siftDown base root len more hbase :=
    slots.siftDownWithin_add hbase len len more root (Nat.le_add_right _ _)

end

end Slots

end ScriptTables
