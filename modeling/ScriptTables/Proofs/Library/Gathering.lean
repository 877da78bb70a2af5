import Mathlib.Data.Int.LeastGreatest
import ScriptTables.Library.Transfer
import ScriptTables.Proofs.Library.Schedules

/-!
# Consecutive positions

What an action gives on positions that follow on each other is gathered from the first one on.  The
loop keeps its results in an array and the caller sees a list, so the equations here are those of a
list: the first result stands in front of those of the rest.

* `positions`, `keysBetween`     the positions, and the keys of a range;
* `Table.between`                the raw elements of a range;
* `gather_zero`, `gather_succ`   the results from front to back;
* `gather_run_of_ok`             where the action has a result at every position and changes nothing;
* `gather_run_of_error`          where it fails at a position and has results before that;
* `Host.unpack_eq`               unpacking gathers elements, behind `Host.unpackStart`.
-/

namespace ScriptTables

/-! ## positions -/

def positions (i : Int) (n : Nat) : List Int := (List.range n).map fun j : Nat => i + j

theorem positions_succ (i : Int) (n : Nat) : positions i (n + 1) = i :: positions (i + 1) n := by
  rw [positions, List.range_succ_eq_map, List.map_cons, List.map_map, positions]
  refine List.cons_eq_cons.mpr ⟨Int.add_zero i, List.map_congr_left fun j _ => ?_⟩
  show i + ((j + 1 : Nat) : Int) = i + 1 + j
  omega

theorem positions_add (i : Int) (n k : Nat) :
    positions i (n + k) = positions i n ++ positions (i + n) k := by
  rw [positions, List.range_add, List.map_append, List.map_map, positions, positions]
  refine congrArg _ (List.map_congr_left fun j _ => ?_)
  show i + ((n + j : Nat) : Int) = i + n + j
  omega

theorem length_positions (i : Int) (n : Nat) : (positions i n).length = n := by
  rw [positions, List.length_map, List.length_range]

theorem mem_positions {i k : Int} {n : Nat} : k ∈ positions i n ↔ i ≤ k ∧ k < i + n := by
  simp only [positions, List.mem_map, List.mem_range]
  constructor
  · rintro ⟨j, hj, rfl⟩
    omega
  · intro hk
    exact ⟨(k - i).toNat, by omega, by omega⟩

/-! ## keys -/

def keysBetween (first last : Int64) : List Int64 :=
  (positions first.toInt (rangeCount first last).toNat).map Int64.ofInt

section
variable {first mid last key : Int64} {i : Int}

theorem toInt_between (hfirst : first.toInt ≤ i)
    (hlast : i < first.toInt + (rangeCount first last).toNat) :
    (Int64.ofInt i).toInt = i ∧ i ≤ last.toInt := by
  have hcount : rangeCount first last = last.toInt - first.toInt + 1 := rfl
  have hlow := first.le_toInt
  have hhigh := last.toInt_lt
  exact ⟨Int64.toInt_ofInt_of_le (by omega) (by omega), by omega⟩

theorem map_toInt_keysBetween (first last : Int64) :
    (keysBetween first last).map Int64.toInt
      = positions first.toInt (rangeCount first last).toNat := by
  rw [keysBetween, List.map_map]
  refine (List.map_congr_left fun i hi => ?_).trans (List.map_id _)
  obtain ⟨hlow, hhigh⟩ := mem_positions.mp hi
  exact (toInt_between hlow hhigh).1

theorem length_keysBetween (first last : Int64) :
    (keysBetween first last).length = (rangeCount first last).toNat := by
  rw [keysBetween, List.length_map, length_positions]

theorem mem_keysBetween : key ∈ keysBetween first last ↔ first ≤ key ∧ key ≤ last := by
  have hcount : rangeCount first last = last.toInt - first.toInt + 1 := rfl
  rw [Int64.le_iff_toInt_le, Int64.le_iff_toInt_le]
  constructor
  · intro hkey
    have hmem := List.mem_map_of_mem (f := Int64.toInt) hkey
    rw [map_toInt_keysBetween, mem_positions] at hmem
    omega
  · rintro ⟨hlow, hhigh⟩
    refine List.mem_map.mpr ⟨key.toInt, mem_positions.mpr ⟨hlow, by omega⟩, key.ofInt_toInt⟩

theorem keysBetween_of_lt (h : last < first) : keysBetween first last = [] := by
  have hlt := Int64.lt_iff_toInt_lt.mp h
  have hcount : rangeCount first last = last.toInt - first.toInt + 1 := rfl
  rw [keysBetween, show (rangeCount first last).toNat = 0 by omega]
  rfl

theorem toInt_next (hlast : mid < last) : (mid + 1).toInt = mid.toInt + 1 := by
  have hhigh := last.toInt_lt
  rw [Int64.lt_iff_toInt_lt] at hlast
  exact toInt_succ (by omega)

theorem le_next (hlast : mid < last) : mid ≤ mid + 1 := by
  rw [Int64.le_iff_toInt_le, toInt_next hlast]
  omega

theorem next_le (hlast : mid < last) : mid + 1 ≤ last := by
  rw [Int64.le_iff_toInt_le, toInt_next hlast]
  exact Int64.lt_iff_toInt_lt.mp hlast

theorem keysBetween_split (hmid : first ≤ mid) (hlast : mid < last) :
    keysBetween first last = keysBetween first mid ++ keysBetween (mid + 1) last := by
  have hnext := toInt_next hlast
  rw [Int64.le_iff_toInt_le] at hmid
  rw [Int64.lt_iff_toInt_lt] at hlast
  have hcount : (rangeCount first last).toNat
      = (rangeCount first mid).toNat + (rangeCount (mid + 1) last).toNat := by
    simp only [rangeCount, hnext]
    omega
  have hstart : first.toInt + (rangeCount first mid).toNat = (mid + 1).toInt := by
    simp only [rangeCount, hnext]
    omega
  rw [keysBetween, hcount, positions_add, List.map_append, hstart]
  rfl

theorem exists_least_key {P : Int64 → Prop} (h : ∃ k, first ≤ k ∧ k ≤ last ∧ P k) :
    ∃ k, first ≤ k ∧ k ≤ last ∧ P k ∧ ∀ j, first ≤ j → j < k → ¬P j := by
  obtain ⟨k, hlow, hhigh, hk⟩ := h
  obtain ⟨z, ⟨k, rfl, hlow, hhigh, hk⟩, hleast⟩ := Int.exists_least_of_bdd
    (P := fun z => ∃ k : Int64, k.toInt = z ∧ first ≤ k ∧ k ≤ last ∧ P k)
    ⟨first.toInt, fun z ⟨k, hz, hlow, _⟩ => by rwa [Int64.le_iff_toInt_le, hz] at hlow⟩
    ⟨k.toInt, k, rfl, hlow, hhigh, hk⟩
  refine ⟨k, hlow, hhigh, hk, fun j hj hjk hjP => ?_⟩
  have hle := hleast j.toInt ⟨j, rfl, hj, Int64.le_trans (Int64.le_of_lt hjk) hhigh, hjP⟩
  rw [Int64.lt_iff_toInt_lt] at hjk
  omega

end

/-! ## the elements of a table -/

/-- the raw elements from one key to another -/
def Table.between (t : Table) (first last : Int64) : List Value :=
  (keysBetween first last).map t.getInteger

theorem Table.between_split (t : Table) {first mid last : Int64} (hmid : first ≤ mid)
    (hlast : mid < last) : t.between first last = t.between first mid ++ t.between (mid + 1) last := by
  rw [Table.between, keysBetween_split hmid hlast, List.map_append]
  rfl

theorem Table.between_ne_nil (t : Table) {first last : Int64} (h : first ≤ last) :
    t.between first last ≠ [] := by
  intro hnil
  have hmem := mem_keysBetween.mpr ⟨Int64.le_refl first, h⟩
  rw [List.map_eq_nil_iff.mp hnil] at hmem
  exact List.not_mem_nil hmem

/-! ## results -/

section
variable {σ α : Type} (f : Int → Action σ α)

/-- what was there before the loop stays in front of its results -/
theorem gatherOnto_eq (n : Nat) : ∀ (i : Int) (results : Array α),
    gatherOnto f n i results = (do
      let more ← gatherOnto f n i #[]
      pure (results ++ more)) := by
  induction n with
  | zero => exact fun i results => by simp [gatherOnto]
  | succ n ih =>
    intro i results
    simp only [gatherOnto, bind_assoc]
    refine bind_congr fun a => ?_
    rw [ih _ (results.push a), ih _ (#[].push a), bind_assoc]
    refine bind_congr fun more => ?_
    simp

theorem gather_zero (i : Int) : gather f 0 i = pure [] := rfl

theorem gather_succ (n : Nat) (i : Int) : gather f (n + 1) i = (do
    let a ← f i
    let more ← gather f n (i + 1)
    pure (a :: more)) := by
  simp only [gather, gatherOnto, bind_assoc]
  refine bind_congr fun a => ?_
  rw [gatherOnto_eq, bind_assoc]
  refine bind_congr fun more => ?_
  simp

variable {f} {s : σ}

theorem gather_run_of_ok {g : Int → α} {n : Nat} {i : Int}
    (hok : ∀ k, i ≤ k → k < i + n → (f k).run s = .ok (g k) s) :
    (gather f n i).run s = .ok ((positions i n).map g) s := by
  induction n generalizing i with
  | zero => rfl
  | succ n ih =>
    have hrest := ih (i := i + 1) fun k hk hlast => hok k (by omega) (by omega)
    rw [gather_succ, run_bind_of_ok (hok i (by omega) (by omega)), run_bind_of_ok hrest,
      positions_succ]
    rfl

theorem gather_run_of_error {e : Error} {i k : Int} {n : Nat}
    (hok : ∀ j, i ≤ j → j < k → ∃ a, (f j).run s = .ok a s) (hik : i ≤ k) (hk : k < i + n)
    (herror : (f k).run s = .error e s) : (gather f n i).run s = .error e s := by
  induction n generalizing i with
  | zero => exact absurd hk (by omega)
  | succ n ih =>
    rw [gather_succ]
    by_cases hfirst : i = k
    · rw [run_bind, hfirst, herror]
    · obtain ⟨a, ha⟩ := hok i (by omega) (by omega)
      have hrest := ih (i := i + 1) (fun j hj hjk => hok j (by omega) hjk) (by omega) (by omega)
      rw [run_bind_of_ok ha, run_bind, hrest]

end

/-! ## unpacking -/

section
variable {σ : Type} (host : Host σ)

/-- the collection that is unpacked, and the last key -/
def Host.unpackEntry (list : Value) : Option Int64 → Action σ (Collection × Int64)
  | some last => do
    let c ← host.checkCollection (some list) 1 "unpack" .reading
    pure (c, last)
  | none => host.collectionWithBorder (some list) 1 "unpack" .reading

/-- the number of keys of a range, where so many results are allowed -/
def Host.resultCount (first last : Int64) : Action σ Nat :=
  if rangeCount first last ≤ 0 ∨ maxResults < rangeCount first last then fail .tooManyResults
  else do
    if ← host.fits (rangeCount first last).toNat then pure (rangeCount first last).toNat
    else fail .tooManyResults

/-- all of unpacking but the reads -/
def Host.unpackStart (list : Value) (first : Int64) (last : Option Int64) :
    Action σ (Collection × Nat) := do
  let (c, last) ← host.unpackEntry list last
  let n ← host.resultCount first last
  pure (c, n)

theorem Host.unpack_eq (list : Value) (first last : Option Int64) :
    host.unpack list first last = (do
      let p ← host.unpackStart list (first.getD 1) last
      gather (p.1.get host) p.2 (first.getD 1).toInt) := by
  have hrest : ∀ (c : Collection) (lo hi : Int64),
      (if rangeCount lo hi ≤ 0 ∨ maxResults < rangeCount lo hi then fail .tooManyResults
        else do
          if ← host.fits (rangeCount lo hi).toNat then
            gather (c.get host) (rangeCount lo hi).toNat lo.toInt
          else fail .tooManyResults : Action σ (List Value))
        = host.resultCount lo hi >>= fun n => gather (c.get host) n lo.toInt := by
    intro c lo hi
    unfold Host.resultCount
    split
    · rfl
    · rw [bind_assoc]
      refine bind_congr fun fits => ?_
      cases fits <;> rfl
  unfold Host.unpackStart
  cases last with
  | some last =>
    simp only [Host.unpack, Host.unpackEntry, bind_assoc, pure_bind]
    exact bind_congr fun c => hrest c _ _
  | none =>
    simp only [Host.unpack, Host.unpackEntry, bind_assoc, pure_bind]
    exact bind_congr fun p => hrest p.1 _ _

end

end ScriptTables
