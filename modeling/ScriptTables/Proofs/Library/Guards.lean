import ScriptTables.Numeric.Binary64
import ScriptTables.Proofs.Library.Schedules

/-!
# The guards of a move

A range of 64-bit integers may have more positions than there are positive ones, and a destination
may be so far up that the last copy would go behind the greatest integer.  A move refuses both before
it copies anything.  Its guards are written so that they can be evaluated in 64 bits: here each of
their sums and differences, and each position that is copied, is taken only when it fits, and none of
them is found not to.

* `checkedAdd`, `checkedSub`   sums and differences that have to fit;
* `MoveRange.isCountable?`, `MoveRange.greatestStart?`   the guards in this arithmetic;
* `MoveRange.checkedPairs`     the positions of the copies in it;
* `Host.checkedMove`           a move whose arithmetic is checked;
* `move_guarded`               it is the move itself, and its guards are exact.
-/

namespace ScriptTables

/-! ## arithmetic that is checked -/

/-- a sum, if it fits into 64 bits -/
def checkedAdd (a b : Int64) : Option Int64 := int64OfInt? (a.toInt + b.toInt)

def checkedSub (a b : Int64) : Option Int64 := int64OfInt? (a.toInt - b.toInt)

theorem exists_int64OfInt? {i : Int} (hlow : -2 ^ 63 ≤ i) (hhigh : i < 2 ^ 63) :
    ∃ n : Int64, int64OfInt? i = some n ∧ n.toInt = i :=
  ⟨Int64.ofInt i, by rw [int64OfInt?_eq_ite, if_pos ⟨hlow, hhigh⟩],
    Int64.toInt_ofInt_of_le (by omega) (by omega)⟩

theorem exists_checkedAdd {a b : Int64} (hlow : -2 ^ 63 ≤ a.toInt + b.toInt)
    (hhigh : a.toInt + b.toInt < 2 ^ 63) :
    ∃ c, checkedAdd a b = some c ∧ c.toInt = a.toInt + b.toInt := exists_int64OfInt? hlow hhigh

theorem exists_checkedSub {a b : Int64} (hlow : -2 ^ 63 ≤ a.toInt - b.toInt)
    (hhigh : a.toInt - b.toInt < 2 ^ 63) :
    ∃ c, checkedSub a b = some c ∧ c.toInt = a.toInt - b.toInt := exists_int64OfInt? hlow hhigh

namespace MoveRange

/-- Whether the positions of a range that is not empty can be counted.  A range of positive positions
always can; only for another one is a bound for its end computed. -/
def isCountable? (r : MoveRange) : Option Bool :=
  if 0 < r.first then some true
  else do
    let bound ← checkedAdd Int64.maxValue r.first
    some (decide (r.last < bound))

def checkedCount (r : MoveRange) : Option Int64 := do
  let difference ← checkedSub r.last r.first
  checkedAdd difference 1

/-- the greatest destination of so many elements -/
def greatestStart? (n : Int64) : Option Int64 := do
  let difference ← checkedSub Int64.maxValue n
  checkedAdd difference 1

def checkedPairs (r : MoveRange) : Nat → Option (List (Int × Int))
  | 0 => some []
  | n + 1 => do
    let before ← r.checkedPairs n
    let source ← checkedAdd r.first (Int64.ofNat n)
    let target ← checkedAdd r.destination (Int64.ofNat n)
    some (before ++ [(source.toInt, target.toInt)])

end MoveRange

/-- A move in 64 bits.  It is `none` where it comes to a sum or a difference that does not fit. -/
def Host.checkedMove {σ : Type} (host : Host σ) (source : Collection) (r : MoveRange)
    (target : Collection) : Option (Action σ Unit) :=
  if r.last < r.first then some (pure ())
  else do
    let countable ← r.isCountable?
    if !countable then some (fail (.badArgument 3 "move" .tooManyToMove))
    else do
      let n ← r.checkedCount
      let greatest ← MoveRange.greatestStart? n
      if greatest < r.destination then some (fail (.badArgument 4 "move" .destinationWrapAround))
      else do
        let pairs ← r.checkedPairs n.toInt.toNat
        let clear := r.isClear || !source.sameAs target
        some (Collection.copyEach host source target (if clear then pairs else pairs.reverse))

/-! ## the guards -/

namespace MoveRange

variable {r : MoveRange}

/-- the first guard is exact -/
theorem isCountable?_eq (r : MoveRange) (hle : r.first.toInt ≤ r.last.toInt) :
    r.isCountable? = some (decide (r.count < 2 ^ 63)) := by
  have hlast := r.last.toInt_lt
  have hzero : (0 : Int64).toInt = 0 := rfl
  unfold isCountable?
  split
  · next hpositive =>
    rw [Int64.lt_iff_toInt_lt, hzero] at hpositive
    rw [decide_eq_true (by unfold count; omega)]
  · next hpositive =>
    rw [Int64.lt_iff_toInt_lt, hzero] at hpositive
    have hfirst := r.first.le_toInt
    have hmax := Int64.toInt_maxValue
    obtain ⟨bound, hbound, hvalue⟩ := exists_checkedAdd (a := Int64.maxValue) (b := r.first)
      (by omega) (by omega)
    rw [hbound]
    refine congrArg some (decide_eq_decide.mpr ?_)
    rw [Int64.lt_iff_toInt_lt, count]
    omega

theorem exists_checkedCount (hle : r.first.toInt ≤ r.last.toInt) (hcount : r.count < 2 ^ 63) :
    ∃ n, r.checkedCount = some n ∧ n.toInt = r.count := by
  have hone : (1 : Int64).toInt = 1 := rfl
  unfold count at hcount ⊢
  obtain ⟨difference, hdifference, hvalue⟩ := exists_checkedSub (a := r.last) (b := r.first)
    (by omega) (by omega)
  obtain ⟨n, hn, hcounted⟩ := exists_checkedAdd (a := difference) (b := 1) (by omega) (by omega)
  refine ⟨n, ?_, by omega⟩
  rw [checkedCount, hdifference]
  exact hn

theorem exists_greatestStart? {n : Int64} (hn : 1 ≤ n.toInt) :
    ∃ greatest, greatestStart? n = some greatest ∧ greatest.toInt = 2 ^ 63 - n.toInt := by
  have hone : (1 : Int64).toInt = 1 := rfl
  have hmax := Int64.toInt_maxValue
  have hfits := n.toInt_lt
  obtain ⟨difference, hdifference, hvalue⟩ := exists_checkedSub (a := Int64.maxValue) (b := n)
    (by omega) (by omega)
  obtain ⟨greatest, hgreatest, hend⟩ := exists_checkedAdd (a := difference) (b := 1) (by omega)
    (by omega)
  refine ⟨greatest, ?_, by omega⟩
  rw [greatestStart?, hdifference]
  exact hgreatest

theorem checkedPairs_eq (r : MoveRange) {n : Nat} (hsource : r.first.toInt + n ≤ 2 ^ 63)
    (htarget : r.destination.toInt + n ≤ 2 ^ 63) (hn : n < 2 ^ 63) :
    r.checkedPairs n = some (upward r.first.toInt r.destination.toInt n) := by
  induction n with
  | zero => rfl
  | succ n ih =>
    have hcount : (Int64.ofNat n).toInt = n := Int64.toInt_ofNat_of_lt (by omega)
    have hfirst := r.first.le_toInt
    have hdestination := r.destination.le_toInt
    obtain ⟨i, hi, hread⟩ := exists_checkedAdd (a := r.first) (b := Int64.ofNat n) (by omega)
      (by omega)
    obtain ⟨j, hj, hwritten⟩ := exists_checkedAdd (a := r.destination) (b := Int64.ofNat n)
      (by omega) (by omega)
    rw [checkedPairs, ih (by omega) (by omega) (by omega), hi, hj, upward_last]
    show some (_ ++ [(i.toInt, j.toInt)]) = _
    rw [hread, hwritten, hcount]

theorem fault?_eq (r : MoveRange) :
    r.fault? =
      if 2 ^ 63 - 1 < r.last.toInt - r.first.toInt + 1 then some (.badArgument 3 "move" .tooManyToMove)
      else if 2 ^ 63 - 1 < r.destination.toInt + (r.last.toInt - r.first.toInt) then
        some (.badArgument 4 "move" .destinationWrapAround)
      else none := by
  have hlast := r.last.toInt_lt
  have hmany : ¬(0 < r.first.toInt ∨ r.last.toInt < greatestInteger + r.first.toInt) ↔
      2 ^ 63 - 1 < r.last.toInt - r.first.toInt + 1 := by
    unfold greatestInteger
    omega
  have hwraps : greatestInteger - r.count + 1 < r.destination.toInt ↔
      2 ^ 63 - 1 < r.destination.toInt + (r.last.toInt - r.first.toInt) := by
    unfold greatestInteger count
    omega
  simp only [fault?, hmany, hwraps]

end MoveRange

section
variable {σ : Type} (host : Host σ)

theorem Host.moveBetween_eq_ite (source target : Collection) (r : MoveRange) :
    host.moveBetween source r target =
      if r.last.toInt < r.first.toInt then pure ()
      else if 2 ^ 63 - 1 < r.last.toInt - r.first.toInt + 1 then
        fail (.badArgument 3 "move" .tooManyToMove)
      else if 2 ^ 63 - 1 < r.destination.toInt + (r.last.toInt - r.first.toInt) then
        fail (.badArgument 4 "move" .destinationWrapAround)
      else Collection.copyEach host source target (r.schedule source target) := by
  by_cases hempty : r.isEmpty = true
  · rw [if_pos (MoveRange.isEmpty_iff_lt.mp hempty), Host.moveBetween, if_pos hempty]
  · rw [if_neg (mt MoveRange.isEmpty_iff_lt.mpr hempty)]
    have hfault := r.fault?_eq
    split
    · next hmany =>
      rw [if_pos hmany] at hfault
      rw [Host.moveBetween, if_neg hempty, hfault]
    · next hmany =>
      rw [if_neg hmany] at hfault
      split
      · next hwraps =>
        rw [if_pos hwraps] at hfault
        rw [Host.moveBetween, if_neg hempty, hfault]
      · next hwraps =>
        rw [if_neg hwraps] at hfault
        exact host.moveBetween_eq source target hempty hfault

/-- no sum and no difference of a move is out of range -/
theorem Host.checkedMove_eq (source target : Collection) (r : MoveRange) :
    host.checkedMove source r target = some (host.moveBetween source r target) := by
  have hcount : r.count = r.last.toInt - r.first.toInt + 1 := rfl
  rw [host.moveBetween_eq_ite, Host.checkedMove]
  by_cases hempty : r.last < r.first
  · rw [if_pos hempty, if_pos (Int64.lt_iff_toInt_lt.mp hempty)]
  rw [if_neg hempty]
  rw [Int64.lt_iff_toInt_lt] at hempty
  rw [if_neg hempty, r.isCountable?_eq (by omega), Option.bind_eq_bind, Option.bind_some]
  by_cases hmany : 2 ^ 63 - 1 < r.last.toInt - r.first.toInt + 1
  · rw [if_pos hmany, decide_eq_false (by omega)]
    rfl
  obtain ⟨n, hn, hcounted⟩ := MoveRange.exists_checkedCount (r := r) (by omega) (by omega)
  obtain ⟨greatest, hgreatest, hend⟩ := MoveRange.exists_greatestStart? (n := n) (by omega)
  have hcountable : ¬(!true) = true := by decide
  rw [if_neg hmany, decide_eq_true (by omega), if_neg hcountable, hn, Option.bind_eq_bind,
    Option.bind_some, hgreatest, Option.bind_eq_bind, Option.bind_some]
  by_cases hwraps : 2 ^ 63 - 1 < r.destination.toInt + (r.last.toInt - r.first.toInt)
  · rw [if_pos hwraps, if_pos (Int64.lt_iff_toInt_lt.mpr (by omega))]
  · have hlast := r.last.toInt_lt
    rw [if_neg hwraps, if_neg (mt Int64.lt_iff_toInt_lt.mp (by omega)), hcounted,
      r.checkedPairs_eq (by omega) (by omega) (by omega)]
    rfl

end

/-- **The guards of a move are exact, and nothing that it computes is out of range.**  A range that is
not empty is refused for its length exactly when it has more positions than the greatest integer, and
else for its destination exactly when the last copy would go behind the greatest integer; a move that
is not refused copies every element.  With each sum and each difference taken only where it fits into
64 bits, those of the guards and the positions of the copies, the move is the same. -/
theorem move_guarded {σ : Type} (host : Host σ) (source target : Collection) (r : MoveRange) :
    host.moveBetween source r target =
      (if r.last.toInt < r.first.toInt then pure ()
      else if 2 ^ 63 - 1 < r.last.toInt - r.first.toInt + 1 then
        fail (.badArgument 3 "move" .tooManyToMove)
      else if 2 ^ 63 - 1 < r.destination.toInt + (r.last.toInt - r.first.toInt) then
        fail (.badArgument 4 "move" .destinationWrapAround)
      else Collection.copyEach host source target (r.schedule source target)) ∧
    host.checkedMove source r target = some (host.moveBetween source r target) ∧
    (Fault.badArgument 3 "move" .tooManyToMove).message
      = "bad argument #3 to 'move' (too many elements to move)" ∧
    (Fault.badArgument 4 "move" .destinationWrapAround).message
      = "bad argument #4 to 'move' (destination wrap around)" :=
  ⟨host.moveBetween_eq_ite source target r, host.checkedMove_eq source target r, by decide, by decide⟩

end ScriptTables
