import ScriptTables.Machine.Access

/-!
# The links of a chain

From an object on, the handlers of a hook lead from link to link: where a link does not hold the key,
the handler in its metatable is the next link.  A chain ends at a link that holds the key, that has no
handler, or whose handler is a function.  It may also never end, since any table may be the handler of
any other.

* `Heap.held`         what a link holds raw under a key;
* `Heap.nextLink?`    the link behind one at which the chain does not end;
* `Heap.link?`        the links by number, the object itself as number zero;
* `Heap.IsEnd`        a link at which a chain ends;
* `readLink_of_handler`, `writeLink_of_handler`   reading and writing at a link that does not end them;
* `isSome_link?_iff`  so many links have another one behind them;
* `isSome_link?_of_cycle`   a chain that comes back to one of its links has links without end;
* `link?_congr`       the links of a chain are found by looking at those in front of them, so that two
                      heaps, or two hooks, may share a chain.
-/

namespace ScriptTables

namespace Heap

/-- what a link holds raw under a key; only tables hold anything -/
def held (h : Heap) (link key : Value) : Value :=
  match link with
  | .table id => (h.table id).get key
  | _ => .nil

/-- the next link: the handler of a link that does not hold the key, if that is neither `nil` nor a
function -/
def nextLink? (h : Heap) (hook : String) (key link : Value) : Option Value :=
  if h.held link key = .nil then
    match h.metamethod link hook with
    | .nil => none
    | .function _ => none
    | handler => some handler
  else none

/-- the links that lie behind an object on its chain, by number -/
def link? (h : Heap) (hook : String) (key object : Value) : Nat → Option Value
  | 0 => some object
  | n + 1 => (h.link? hook key object n).bind (h.nextLink? hook key)

/-- a chain ends at a link that holds the key, has no handler, or has a function as its handler -/
def IsEnd (h : Heap) (hook : String) (key link : Value) : Prop :=
  h.held link key ≠ .nil ∨ h.metamethod link hook = .nil ∨ ∃ f, h.metamethod link hook = .function f

section
variable {h : Heap} {hook : String} {key object link next handler : Value}

/-! ## one link -/

theorem held_of_not_table (hlink : ∀ id, link ≠ .table id) : h.held link key = .nil := by
  cases link with
  | table id => exact absurd rfl (hlink id)
  | _ => rfl

/-! ### reading and writing at a link -/

theorem readLink_of_not_table (hlink : ∀ id, link ≠ .table id) :
    h.readLink link key = if (h.metamethod link indexHook).isNil then .refuse
      else .follow (h.metamethod link indexHook) := by
  cases link with
  | table id => exact absurd rfl (hlink id)
  | _ => rfl

theorem readLink_of_handler (hheld : h.held link key = .nil)
    (hhandler : h.metamethod link indexHook = handler) (hne : handler ≠ .nil) :
    h.readLink link key = .follow handler := by
  have hsome : ¬(h.metamethod link indexHook).isNil = true := by
    rw [hhandler]
    exact mt Value.isNil_iff.mp hne
  by_cases hlink : ∃ id, link = .table id
  · obtain ⟨id, rfl⟩ := hlink
    have hraw : ((h.table id).get key).isNil = true := Value.isNil_iff.mpr hheld
    simp only [readLink, hraw, if_true]
    rw [if_neg hsome, hhandler]
  · rw [readLink_of_not_table (not_exists.mp hlink), if_neg hsome, hhandler]

theorem writeLink_of_not_table (hlink : ∀ id, link ≠ .table id) :
    h.writeLink link key = if (h.metamethod link newIndexHook).isNil then .refuse
      else .follow (h.metamethod link newIndexHook) := by
  cases link with
  | table id => exact absurd rfl (hlink id)
  | _ => rfl

theorem writeLink_of_handler (hheld : h.held link key = .nil)
    (hhandler : h.metamethod link newIndexHook = handler) (hne : handler ≠ .nil) :
    h.writeLink link key = .follow handler := by
  have hsome : ¬(h.metamethod link newIndexHook).isNil = true := by
    rw [hhandler]
    exact mt Value.isNil_iff.mp hne
  by_cases hlink : ∃ id, link = .table id
  · obtain ⟨id, rfl⟩ := hlink
    have hraw : ((h.table id).get key).isNil = true := Value.isNil_iff.mpr hheld
    simp only [writeLink, hraw, if_true]
    rw [if_neg hsome, hhandler]
  · rw [writeLink_of_not_table (not_exists.mp hlink), if_neg hsome, hhandler]

/-! ### the next link -/

theorem nextLink?_eq_some_iff :
    h.nextLink? hook key link = some next ↔
      h.held link key = .nil ∧ h.metamethod link hook = next ∧ next ≠ .nil ∧
        ∀ f, next ≠ .function f := by
  unfold nextLink?
  by_cases hheld : h.held link key = .nil
  · rw [if_pos hheld]
    cases hhandler : h.metamethod link hook <;> grind
  · rw [if_neg hheld]
    exact ⟨nofun, fun hnext => absurd hnext.1 hheld⟩

theorem nextLink?_eq_none_iff : h.nextLink? hook key link = none ↔ h.IsEnd hook key link := by
  unfold nextLink? IsEnd
  by_cases hheld : h.held link key = .nil
  · rw [if_pos hheld]
    cases hhandler : h.metamethod link hook <;> simp [hheld]
  · rw [if_neg hheld]
    exact ⟨fun _ => Or.inl hheld, fun _ => rfl⟩

/-! ## all links -/

theorem link?_zero (h : Heap) (hook : String) (key object : Value) :
    h.link? hook key object 0 = some object := rfl

theorem link?_succ (h : Heap) (hook : String) (key object : Value) (n : Nat) :
    h.link? hook key object (n + 1) = (h.link? hook key object n).bind (h.nextLink? hook key) := rfl

theorem link?_add (h : Heap) (hook : String) (key object : Value) (i n : Nat) :
    h.link? hook key object (i + n)
      = (h.link? hook key object i).bind fun link => h.link? hook key link n := by
  induction n with
  | zero => exact (Option.bind_fun_some _).symm
  | succ n ih =>
    rw [← Nat.add_assoc, link?_succ, ih, Option.bind_assoc]
    rfl

theorem isSome_link?_of_le {i j : Nat} (hij : i ≤ j) (hj : (h.link? hook key object j).isSome) :
    (h.link? hook key object i).isSome := by
  obtain ⟨n, rfl⟩ := Nat.exists_eq_add_of_le hij
  rw [link?_add] at hj
  exact Option.isSome_of_isSome_bind hj

theorem isSome_link?_iff {n : Nat} :
    (h.link? hook key object n).isSome ↔
      ∀ i link, i < n → h.link? hook key object i = some link → ¬h.IsEnd hook key link := by
  induction n with
  | zero => exact ⟨fun _ i _ hi => absurd hi (Nat.not_lt_zero i), fun _ => rfl⟩
  | succ n ih =>
    constructor
    · intro hsome i link hi hlink hend
      have hnext := isSome_link?_of_le (Nat.succ_le_of_lt hi) hsome
      rw [link?_succ, hlink, Option.bind_some, nextLink?_eq_none_iff.mpr hend] at hnext
      cases hnext
    · intro hends
      have hsome := ih.mpr fun i link hi => hends i link (Nat.lt_succ_of_lt hi)
      obtain ⟨link, hlink⟩ := Option.isSome_iff_exists.mp hsome
      have hnext := mt nextLink?_eq_none_iff.mp (hends n link (Nat.lt_succ_self n) hlink)
      rw [link?_succ, hlink, Option.bind_some]
      exact Option.isSome_iff_ne_none.mpr hnext

/-- a chain ends within so many links, or there is another link behind them -/
theorem exists_end_or_isSome (h : Heap) (hook : String) (key object : Value) (n : Nat) :
    (∃ i link, i < n ∧ h.link? hook key object i = some link ∧ h.IsEnd hook key link) ∨
      (h.link? hook key object n).isSome := by
  rw [isSome_link?_iff]
  by_cases hend : ∃ i link, i < n ∧ h.link? hook key object i = some link ∧ h.IsEnd hook key link
  · exact Or.inl hend
  · exact Or.inr fun i link hi hlink hlast => hend ⟨i, link, hi, hlink, hlast⟩

/-! ## cycles -/

theorem link?_mul_of_cycle {n : Nat} (hcycle : h.link? hook key link n = some link) (k : Nat) :
    h.link? hook key link (k * n) = some link := by
  induction k with
  | zero => rw [Nat.zero_mul, link?_zero]
  | succ k ih => rw [Nat.succ_mul, link?_add, ih, Option.bind_some, hcycle]

theorem isSome_link?_of_cycle {i j : Nat} (hij : i < j) (hi : h.link? hook key object i = some link)
    (hj : h.link? hook key object j = some link) (n : Nat) :
    (h.link? hook key object n).isSome := by
  obtain ⟨d, rfl⟩ := Nat.exists_eq_add_of_le (Nat.le_of_lt hij)
  have hcycle : h.link? hook key link d = some link := by
    rw [link?_add, hi, Option.bind_some] at hj
    exact hj
  -- with every round at least one link more lies behind the object
  have hround : n ≤ i + n * d := by
    have hlength : n * 1 ≤ n * d := Nat.mul_le_mul_left n (by omega)
    omega
  refine isSome_link?_of_le hround ?_
  rw [link?_add, hi, Option.bind_some, link?_mul_of_cycle hcycle]
  rfl

/-! ## two heaps, two hooks -/

theorem link?_congr {h' : Heap} {hook' : String} {n : Nat}
    (hsame : ∀ i link, i < n → h.link? hook key object i = some link →
      h'.held link key = h.held link key ∧ h'.metamethod link hook' = h.metamethod link hook) :
    ∀ i, i ≤ n → h'.link? hook' key object i = h.link? hook key object i := by
  intro i
  induction i with
  | zero => exact fun _ => rfl
  | succ i ih =>
    intro hi
    rw [link?_succ, link?_succ, ih (by omega)]
    cases hlink : h.link? hook key object i with
    | none => rfl
    | some link =>
      obtain ⟨hheld, hhandler⟩ := hsame i link (by omega) hlink
      rw [Option.bind_some, Option.bind_some, nextLink?, nextLink?, hheld, hhandler]

end

end Heap

end ScriptTables
