import ScriptTables.Proofs.Library.Recording
import ScriptTables.Proofs.Sort.Laps
import ScriptTables.Proofs.Sort.Conserving

/-!
# A sort is confined to its list

A comparator and the hooks of a list may answer anything, each time something else, and may change the
list while it is sorted.  Still the sort ends: its work is bounded by the border that was found at the
start, and it touches no position outside of it.  Nothing but the arithmetic of the cursors is used for
that, so it is stated for any host, whose actions stand for hooks and comparators.

* `Request.OfSort`     the requests that a sort of the positions `1, ..., border` may make;
* `sort_confined`      they are all that it makes, and it makes few of them.
-/

namespace ScriptTables

/-- an access to one of the positions `1, ..., border` of a list, or a question about two values -/
def Request.OfSort (list : Value) (border : Int64) : Request → Prop
  | .index object key =>
    object = list ∧ ∃ i : Int64, key = .integer i ∧ 1 ≤ i.toInt ∧ i.toInt ≤ border.toInt
  | .setIndex object key _ =>
    object = list ∧ ∃ i : Int64, key = .integer i ∧ 1 ≤ i.toInt ∧ i.toInt ≤ border.toInt
  | .lessThan _ _ => True
  | .call _ arguments => arguments.length = 2
  | .length _ => False

def sortRequests (n : Nat) : Nat := 97 * (n * (n.log2 + 1))

section
variable {σ : Type} (host : Host σ) (c : Collection) (border : Int64)

theorem position_within {i n : Nat} (h₁ : 1 ≤ i) (hi : i ≤ n) (hn : (n : Int) = border.toInt) :
    ∃ k : Int64, Value.integer (Int64.ofInt i) = .integer k ∧ 1 ≤ k.toInt ∧ k.toInt ≤ border.toInt := by
  have hfits := border.toInt_lt
  have hi : (Int64.ofInt i).toInt = i := toInt_position (by omega)
  exact ⟨Int64.ofInt i, rfl, by omega, by omega⟩

theorem keeps_precedes (entry : List Request) (comparator : Option Value) (a b : Value) :
    Keeps (Since entry (Request.OfSort c.value border)) (host.recorded.precedes comparator a b) := by
  cases comparator with
  | none => exact keeps_recording trivial _
  | some f =>
    refine Keeps.bind ?_ fun answer => Keeps.pure answer.isTruthy
    have hpair : Request.OfSort c.value border (.call f [a, b]) := rfl
    have hcall : Keeps (Since entry (Request.OfSort c.value border)) (host.recorded.call f [a, b]) :=
      keeps_recording hpair _
    exact hcall.tryCatch fun e => Keeps.throw _

theorem confined_recorded (entry : List Request) (comparator : Option Value) {n : Nat}
    (hn : (n : Int) = border.toInt) :
    (c.slots host.recorded comparator).Confined n (Since entry (Request.OfSort c.value border))
      (fun _ => True) fun _ => Since entry (Request.OfSort c.value border) := by
  have hget : ∀ i : Nat, 1 ≤ i → i ≤ n →
      Keeps (Since entry (Request.OfSort c.value border)) (c.get host.recorded i) :=
    fun i h₁ hi => keeps_recording ⟨rfl, position_within border h₁ hi hn⟩ _
  have hset : ∀ (i : Nat) (v : Value), 1 ≤ i → i ≤ n →
      Keeps (Since entry (Request.OfSort c.value border)) (c.set host.recorded i v) :=
    fun i v h₁ hi => keeps_recording ⟨rfl, position_within border h₁ hi hn⟩ _
  refine ⟨fun i h₁ hi => ?_, fun i j h₁ hi h₁' hj => ?_, fun a b _ _ => ?_⟩
  · exact (hget i h₁ hi).mono (fun _ hs => hs) (fun _ _ hs => ⟨trivial, hs⟩) fun _ _ hs => hs
  · refine (hget i h₁ hi).bind fun a => (hget j h₁' hj).bind fun b => ?_
    exact (hset i b h₁ hi).bind fun _ => hset j a h₁' hj
  · exact keeps_precedes host c border entry comparator a b

theorem keeps_sortElements (entry : List Request) (comparator : Option Value) :
    Keeps (Since entry (Request.OfSort c.value border))
      (c.sortElements host.recorded border comparator) := by
  unfold Collection.sortElements
  split
  · exact Keeps.pure ()
  · split
    · exact Keeps.fail _
    · have hn : (border.toInt.toNat : Int) = border.toInt := by omega
      exact (confined_recorded host c border entry comparator hn).sortRange _ (Nat.le_refl 1)
        (Nat.le_refl _)

theorem takes_sortElements (comparator : Option Value) :
    Takes Recorded.count (sortRequests border.toInt.toNat)
      (c.sortElements host.recorded border comparator) := by
  unfold Collection.sortElements
  split
  · exact Takes.pure ()
  · split
    · exact Takes.fail _
    · exact (c.metered_slots host comparator).sort _

theorem exists_requests_sortElements (comparator : Option Value) (s : Recorded σ) :
    ∃ rest, (finalState ((c.sortElements host.recorded border comparator).run s)).requests
        = s.requests ++ rest ∧
      rest.length ≤ sortRequests border.toInt.toNat ∧ ∀ r ∈ rest, r.OfSort c.value border :=
  exists_requests (fun entry => keeps_sortElements host c border entry comparator)
    (takes_sortElements host c border comparator) s

end

/-! ## hostile comparators and hooks -/

/-- **Once a sort has found its list and the border, it reads and writes no position outside of
`1, ..., border` and makes no more than a bounded number of requests, whatever the hooks and the
comparator answer and change.**  The record of the requests does not change the sort.  A partition
returns neither end of its range, and no loop is cut short by the number of turns it is given. -/
theorem sort_confined {σ : Type} (host : Host σ) {s t : σ} {list : Value} {c : Collection}
    {border : Int64}
    (hentry : (host.collectionWithBorder (some list) 1 "sort" .readingWriting).run s
      = .ok (c, border) t) :
    (∀ comparator : Value,
      InStep Recorded.Of (· = ·) (host.recorded.sort list comparator) (host.sort list comparator) ∧
      ∃ rest, requests (host.recorded.sort list comparator) s
          = requests (host.recorded.collectionWithBorder (some list) 1 "sort" .readingWriting) s
            ++ rest ∧
        rest.length ≤ sortRequests border.toInt.toNat ∧ ∀ r ∈ rest, r.OfSort list border) ∧
    (∀ args, argument? args 1 = some list →
      InStep Recorded.Of (· = ·) (host.recorded.library .sort args) (host.library .sort args) ∧
      ∃ rest, requests (host.recorded.library .sort args) s
          = requests (host.recorded.collectionWithBorder (some list) 1 "sort" .readingWriting) s
            ++ rest ∧
        rest.length ≤ sortRequests border.toInt.toNat ∧ ∀ r ∈ rest, r.OfSort list border) ∧
    ∀ (ρ : Type) (slots : Slots ρ), slots.LapsSuffice ∧
      ∀ lo hi, 1 ≤ lo → lo + 2 ≤ hi →
        Ends (fun _ => True) (slots.partition lo hi) (fun p _ => lo < p ∧ p < hi) fun _ _ => True := by
  obtain rfl := value_of_entry host hentry
  refine ⟨fun comparator => ⟨?_, ?_⟩, fun args hlist => ⟨?_, ?_⟩, fun ρ slots => ⟨slots.lapsSuffice, ?_⟩⟩
  · exact host.recorded_matching.sort c.value comparator
  · refine exists_requests_bind host hentry fun r => ?_
    cases comparator with
    | nil => exact exists_requests_sortElements host c border none r
    | function f => exact exists_requests_sortElements host c border (some (.function f)) r
    | _ => exact exists_no_requests _ r.requests
  · exact host.recorded_matching.library .sort args
  · show ∃ rest, requests (host.recorded.collectionWithBorder (argument? args 1) 1 "sort"
      .readingWriting >>= _) s = _ ∧ _
    rw [hlist]
    refine exists_requests_bind host hentry fun r => ?_
    cases hc : comparator? (argumentOrNil args 2) with
    | none =>
      rw [optionalFunction_of_none hc]
      exact exists_no_requests _ r.requests
    | some comparator =>
      rw [optionalFunction_of_some hc]
      obtain ⟨rest, hrest, hbound⟩ := exists_requests_sortElements host c border comparator r
      refine ⟨rest, ?_, hbound⟩
      rw [← hrest]
      show (finalState ((do c.sortElements host.recorded border comparator; pure []).run r)).requests
        = _
      rw [run_bind]
      cases (c.sortElements host.recorded border comparator).run r <;> rfl
  · intro lo hi hlo hle
    have hpartition := (slots.confined_always hi).partition hlo hle (Nat.le_refl hi)
    exact hpartition.mono (fun _ hs => hs) (fun _ _ hp => hp.1) fun _ _ he => he

/-- a comparator that always answers yes, on a list with a hole -/
theorem sort_confined_holed :
    ((Machine.host EvalM.call).collectionWithBorder (some (.table ⟨0⟩)) 1 "sort"
      .readingWriting).run holed = .ok (.native ⟨0⟩, 3) holed ∧
    ∃ rest, requests ((Machine.host EvalM.call).recorded.sort (.table ⟨0⟩) (.function ⟨0⟩)) holed
        = [] ++ rest ∧
      rest.length ≤ sortRequests 3 ∧ ∀ r ∈ rest, r.OfSort (.table ⟨0⟩) 3 :=
  have hentry : ((Machine.host EvalM.call).collectionWithBorder (some (.table ⟨0⟩)) 1 "sort"
      .readingWriting).run holed = .ok (.native ⟨0⟩, 3) holed := rfl
  ⟨hentry, ((sort_confined (Machine.host EvalM.call) hentry).1 (.function ⟨0⟩)).2⟩

end ScriptTables
