import Mathlib.Algebra.Group.Int.Defs
import Mathlib.Algebra.Group.Nat.Defs
import ScriptTables.Library.Insert
import ScriptTables.Library.Move
import ScriptTables.Library.Remove
import ScriptTables.Proofs.Action

/-!
# In which order elements are copied

Inserting, removing and moving all copy elements one by one, from one run of positions to another,
and differ in where the runs start and in the end they begin with.  So one loop over a list of pairs
of positions stands for the four of them.

* `accepts_iff`, `isRemovable_iff`   where an insertion and a removal are accepted, in integers;
* `upward`                  the pairs of two runs, the first ones first;
* `upward_clear`, `downward_clear`   the orders in which no position is written before it was read;
* `Collection.copyEach`     read at the first position of each pair, write at the second;
* `shiftUp_eq`, `shiftDown_eq`, `copyUpward_eq`, `copyDownward_eq`   the loops;
* `ends_copyEach`           what every read and every write keeps;
* `insertAt_eq`, `removeAt_eq`   the operations at positions they accept;
* `MoveRange.schedule`      the pairs of a move, in its order.
-/

namespace ScriptTables

/-! ## positions -/

theorem toInt_succ {n : Int64} (h : n.toInt + 1 < 2 ^ 63) : (n + 1).toInt = n.toInt + 1 := by
  have hlow := n.le_toInt
  have hone : (1 : Int64).toInt = 1 := rfl
  rw [Int64.toInt_add, hone]
  exact Int.bmod_eq_of_le (by omega) (by omega)

theorem succ_fits_iff {n : Int64} : n.toInt + 1 < 2 ^ 63 ↔ n ≠ Int64.maxValue := by
  have hhigh := n.toInt_lt
  rw [ne_eq, ← Int64.toInt_inj, Int64.toInt_maxValue]
  omega

theorem toInt_succ_of_not {n : Int64} (h : ¬n.toInt + 1 < 2 ^ 63) : (n + 1).toInt = -2 ^ 63 := by
  rw [Decidable.not_not.mp (mt succ_fits_iff.mpr h)]
  rfl

theorem Collection.accepts_iff {b p : Int64} :
    ¬(p.toInt < 1 ∨ appendPosition b < p.toInt) ↔
      1 ≤ p.toInt ∧ p.toInt ≤ b.toInt + 1 ∧ b.toInt + 1 < 2 ^ 63 := by
  have hlow := p.le_toInt
  rw [appendPosition]
  by_cases hfits : b.toInt + 1 < 2 ^ 63
  · rw [toInt_succ hfits]
    omega
  · rw [toInt_succ_of_not hfits]
    omega

theorem isRemovable_iff {border position : Int64} (hborder : border.toInt + 1 < 2 ^ 63) :
    Collection.isRemovable border position = true ↔
      position.toInt = border.toInt ∨ 1 ≤ position.toInt ∧ position.toInt ≤ border.toInt + 1 := by
  rw [Collection.isRemovable, Bool.or_eq_true, Bool.and_eq_true, beq_iff_eq, decide_eq_true_iff,
    decide_eq_true_iff, Int64.le_iff_toInt_le, toInt_succ hborder, Int64.toInt_inj]

/-- At the greatest border no other position is accepted: its successor is no integer of 64 bits. -/
theorem isRemovable_iff_fits {border position : Int64} :
    Collection.isRemovable border position = true ↔
      position.toInt = border.toInt ∨ 1 ≤ position.toInt ∧ position.toInt ≤ border.toInt + 1 ∧
        border.toInt + 1 < 2 ^ 63 := by
  by_cases hborder : border.toInt + 1 < 2 ^ 63
  · rw [isRemovable_iff hborder, and_iff_left hborder]
  · rw [Collection.isRemovable, Bool.or_eq_true, Bool.and_eq_true, beq_iff_eq, decide_eq_true_iff,
      decide_eq_true_iff, Int64.le_iff_toInt_le, toInt_succ_of_not hborder, ← Int64.toInt_inj]
    omega

/-! ## pairs of positions -/

/-- The pairs of two runs of `n` positions.  A copy that begins at the end goes through them in
reverse. -/
def upward (i j : Int) (n : Nat) : List (Int × Int) :=
  (List.range n).map fun (k : Nat) => (i + k, j + k)

theorem upward_last (i j : Int) (n : Nat) : upward i j (n + 1) = upward i j n ++ [(i + n, j + n)] := by
  rw [upward, List.range_succ, List.map_append]
  rfl

theorem upward_first (i j : Int) (n : Nat) :
    upward i j (n + 1) = (i, j) :: upward (i + 1) (j + 1) n := by
  rw [upward, List.range_succ_eq_map, List.map_cons, List.map_map, Int.natCast_zero, Int.add_zero,
    Int.add_zero]
  refine congrArg ((i, j) :: ·) (List.map_congr_left fun k _ => ?_)
  refine Prod.ext ?_ ?_ <;> simp only [Function.comp_apply] <;> omega

theorem length_upward (i j : Int) (n : Nat) : (upward i j n).length = n := by
  rw [upward, List.length_map, List.length_range]

theorem mem_upward {i j : Int} {n : Nat} {p : Int × Int} :
    p ∈ upward i j n ↔ i ≤ p.1 ∧ p.1 < i + n ∧ p.2 = p.1 + (j - i) := by
  rw [upward, List.mem_map]
  constructor
  · rintro ⟨k, hk, rfl⟩
    have hk := List.mem_range.mp hk
    exact ⟨by omega, by omega, by omega⟩
  · rintro ⟨hlow, hhigh, hsecond⟩
    refine ⟨(p.1 - i).toNat, List.mem_range.mpr (by omega), ?_⟩
    refine Prod.ext ?_ ?_ <;> simp only <;> omega

theorem ne_ofInt {a b : Int} (ha : -2 ^ 63 ≤ a ∧ a < 2 ^ 63) (hb : -2 ^ 63 ≤ b ∧ b < 2 ^ 63)
    (hne : a ≠ b) : Int64.ofInt a ≠ Int64.ofInt b := by
  intro h
  have hab := congrArg Int64.toInt h
  rw [Int64.toInt_ofInt_of_le (by omega) (by omega),
    Int64.toInt_ofInt_of_le (by omega) (by omega)] at hab
  exact hne hab

theorem upward_increasing (i j : Int) (n : Nat) :
    (upward i j n).Pairwise fun p q => p.1 < q.1 := by
  rw [upward, List.pairwise_map]
  exact List.pairwise_lt_range.imp fun hlt => by omega

section
variable {i j : Int} {n : Nat}

/-- Going up, no position is written that is read later, where the second run starts at or before the
first one, or behind it. -/
theorem upward_clear (hi : -2 ^ 63 ≤ i ∧ i + n ≤ 2 ^ 63) (hj : -2 ^ 63 ≤ j ∧ j + n ≤ 2 ^ 63)
    (hclear : j ≤ i ∨ i + n ≤ j) :
    (upward i j n).Pairwise fun p q => Int64.ofInt p.2 ≠ Int64.ofInt q.1 := by
  refine (upward_increasing i j n).imp_of_mem fun hp hq hlt => ?_
  have hp := mem_upward.mp hp
  have hq := mem_upward.mp hq
  exact ne_ofInt ⟨by omega, by omega⟩ ⟨by omega, by omega⟩ (by omega)

theorem downward_clear (hi : -2 ^ 63 ≤ i ∧ i + n ≤ 2 ^ 63) (hj : -2 ^ 63 ≤ j ∧ j + n ≤ 2 ^ 63)
    (hle : i ≤ j) :
    (upward i j n).reverse.Pairwise fun p q => Int64.ofInt p.2 ≠ Int64.ofInt q.1 := by
  refine (List.pairwise_reverse.mpr (upward_increasing i j n)).imp_of_mem fun hp hq hlt => ?_
  have hp := mem_upward.mp (List.mem_reverse.mp hp)
  have hq := mem_upward.mp (List.mem_reverse.mp hq)
  exact ne_ofInt ⟨by omega, by omega⟩ ⟨by omega, by omega⟩ (by omega)

end

section
variable {σ : Type} (host : Host σ)

namespace Collection

/-! ## one loop for all -/

/-- copy elements of one collection into another, or into the same one, in the order of a list -/
def copyEach (source target : Collection) : List (Int × Int) → Action σ Unit
  | [] => pure ()
  | (i, j) :: rest => do
    let v ← source.get host i
    target.set host j v
    copyEach source target rest

theorem copyUpward_eq (source target : Collection) (n : Nat) : ∀ i j : Int,
    copyUpward host source target n i j = copyEach host source target (upward i j n) := by
  induction n with
  | zero => exact fun _ _ => rfl
  | succ n ih =>
    intro i j
    rw [upward_first, copyEach, copyUpward]
    simp only [ih]

theorem copyDownward_eq (source target : Collection) (i j : Int) (n : Nat) :
    copyDownward host source target i j n
      = copyEach host source target (upward i j n).reverse := by
  induction n with
  | zero => rfl
  | succ n ih =>
    rw [upward_last, List.reverse_append, List.reverse_singleton, List.singleton_append, copyEach,
      copyDownward, ih]

theorem shiftUp_eq (c : Collection) (n : Nat) : ∀ top : Int,
    c.shiftUp host n top = copyEach host c c (upward (top - n) (top - n + 1) n).reverse := by
  induction n with
  | zero => exact fun _ => rfl
  | succ n ih =>
    intro top
    have hread : top - (n + 1 : Nat) + n = top - 1 := by omega
    have hwritten : top - (n + 1 : Nat) + 1 + n = top := by omega
    have hstart : top - (n + 1 : Nat) = top - 1 - n := by omega
    rw [upward_last, List.reverse_append, List.reverse_singleton, List.singleton_append, copyEach,
      shiftUp, ih, hread, hwritten, hstart]

theorem shiftDown_eq (c : Collection) (n : Nat) : ∀ bottom : Int,
    c.shiftDown host n bottom = copyEach host c c (upward (bottom + 1) bottom n) := by
  induction n with
  | zero => exact fun _ => rfl
  | succ n ih =>
    intro bottom
    rw [upward_first, copyEach, shiftDown]
    simp only [ih]

theorem ends_copyEach {source target : Collection} {P : σ → Prop} {E : Error → σ → Prop} :
    ∀ {pairs : List (Int × Int)}, (∀ p ∈ pairs, Ends P (source.get host p.1) (fun _ => P) E) →
      (∀ p ∈ pairs, ∀ v, Ends P (target.set host p.2 v) (fun _ => P) E) →
      Ends P (copyEach host source target pairs) (fun _ => P) E
  | [], _, _ => Ends.pure fun _ hs => hs
  | p :: _, hget, hset => by
    refine Ends.bind (hget p List.mem_cons_self) fun v => ?_
    refine Ends.bind (hset p List.mem_cons_self v) fun _ => ?_
    exact ends_copyEach (fun q hq => hget q (List.mem_cons_of_mem _ hq))
      fun q hq => hset q (List.mem_cons_of_mem _ hq)

/-! ## the operations -/

theorem shiftCount_eq {border position : Int64} (h : position.toInt + 1 < 2 ^ 63) :
    shiftCount border position = (appendPosition border - position.toInt).toNat := by
  rw [shiftCount, toInt_succ h]
  congr 1
  omega

/-- An insertion, its position that of the border's successor when none is given.  One at the greatest
position is not meant: there is nothing behind it where the loop could start. -/
theorem insertAt_eq (c : Collection) {border : Int64} {position : Option Int64} {p : Int}
    (hp : position.elim (appendPosition border) Int64.toInt = p) (hlow : 1 ≤ p)
    (hhigh : p ≤ appendPosition border) (hstart : position = none ∨ p + 1 < 2 ^ 63) (v : Value) :
    c.insertAt host border position v = (do
      copyEach host c c (upward p (p + 1) (appendPosition border - p).toNat).reverse
      c.set host p v) := by
  unfold insertAt
  cases position with
  | none =>
    have hp : appendPosition border = p := hp
    have hnone : (appendPosition border - p).toNat = 0 := by omega
    rw [hnone, ← hp]
    rfl
  | some position =>
    have hp : position.toInt = p := hp
    subst hp
    have hnext : position.toInt + 1 < 2 ^ 63 := hstart.resolve_left nofun
    have hend : appendPosition border - (appendPosition border - position.toInt).toNat
        = position.toInt := by omega
    dsimp only
    rw [if_neg (by omega), shiftCount_eq hnext, shiftUp_eq, hend]

theorem removeAt_eq (c : Collection) {border p : Int64} {position : Option Int64}
    (hp : position.getD border = p) (h : isRemovable border p = true) :
    c.removeAt host border position = (do
      let removed ← c.get host p.toInt
      copyEach host c c (upward (p.toInt + 1) p.toInt (border.toInt - p.toInt).toNat)
      c.set host (max p.toInt border.toInt) .nil
      pure (some removed)) := by
  have hend : p.toInt + (border.toInt - p.toInt).toNat = max p.toInt border.toInt := by omega
  unfold removeAt
  simp only [hp, h, if_true, shiftDown_eq, hend]

theorem removeAt_of_not (c : Collection) {border p : Int64} {position : Option Int64}
    (hp : position.getD border = p) (h : ¬isRemovable border p = true) :
    c.removeAt host border position = pure none := by
  unfold removeAt
  simp only [hp, h]
  rfl

end Collection

namespace MoveRange

variable {r : MoveRange}

theorem isEmpty_iff_lt : r.isEmpty = true ↔ r.last.toInt < r.first.toInt := by
  rw [isEmpty, decide_eq_true_iff, Int64.lt_iff_toInt_lt]

theorem isEmpty_iff : r.isEmpty = true ↔ r.count ≤ 0 := by
  rw [isEmpty_iff_lt, count]
  omega

theorem isClear_iff : r.isClear = true ↔
    r.last.toInt < r.destination.toInt ∨ r.destination.toInt ≤ r.first.toInt := by
  rw [isClear, Bool.or_eq_true, decide_eq_true_iff, decide_eq_true_iff, Int64.lt_iff_toInt_lt,
    Int64.le_iff_toInt_le]

theorem destination_le (hr : r.fault? = none) : r.destination.toInt + r.count ≤ 2 ^ 63 := by
  rw [fault?] at hr
  split at hr
  · cases hr
  · split at hr
    · cases hr
    · next hwraps =>
      rw [greatestInteger] at hwraps
      omega

end MoveRange

/-- the pairs of a move, in the order in which no element is overwritten before it was read -/
def MoveRange.schedule (r : MoveRange) (source target : Collection) : List (Int × Int) :=
  let pairs := upward r.first.toInt r.destination.toInt r.count.toNat
  if r.isClear || !source.sameAs target then pairs else pairs.reverse

theorem MoveRange.length_schedule (r : MoveRange) (source target : Collection) :
    (r.schedule source target).length = r.count.toNat := by
  unfold MoveRange.schedule
  dsimp only
  split
  · exact length_upward _ _ _
  · rw [List.length_reverse, length_upward]

theorem Host.moveBetween_eq (source target : Collection) {r : MoveRange} (hne : ¬r.isEmpty = true)
    (hr : r.fault? = none) :
    host.moveBetween source r target
      = Collection.copyEach host source target (r.schedule source target) := by
  unfold Host.moveBetween MoveRange.schedule
  rw [if_neg hne]
  simp only [hr]
  split
  · exact Collection.copyUpward_eq host source target _ _ _
  · exact Collection.copyDownward_eq host source target _ _ _

end

end ScriptTables
