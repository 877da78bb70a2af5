import ScriptTables.Machine.Call
import ScriptTables.Proofs.Library.Transcripts

/-!
# Positions at any border

The border of an object is what its length hook answers, and that may be any integer of 64 bits: a
negative one, or the greatest.  Which positions an operation accepts, and what it then does, is told
here for all of them, on any host.

* `remove_accepts`             a removal, at the positions that it accepts and at all others;
* `remove_before_greatest`     the greatest border: the position in front of it is not accepted.
-/

namespace ScriptTables

section
variable {σ : Type} (host : Host σ) {s t : σ} {list : Value} {c : Collection} {b p : Int64}
  {position : Option Int64}

theorem continues_remove
    (hentry : (host.collectionWithBorder (some list) 1 "remove" .readingWriting).run s = .ok (c, b) t)
    (hp : position.getD b = p) (hin : Collection.isRemovable b p = true) :
    ∃ removed copied, copied.length = (b.toInt - p.toInt).toNat ∧
      Continues host (Request.perform host)
        (requests (host.recorded.collectionWithBorder (some list) 1 "remove" .readingWriting) s) s t
        (fun host => host.remove list position) (removePlan list b.toInt p.toInt removed copied)
        (some removed) := by
  have hvalue := value_of_entry host hentry
  have hreads : Talk.Reads (fun _ => True) c := fun _ => trivial
  have hwrites : Talk.Writes (fun _ => True) c := fun _ _ => trivial
  have hstep : InStep Recorded.Of (· = ·) (c.removeAt host.recorded b position)
      (c.removeAt host b position) :=
    (host.recorded_matching.companions.removeAt rfl b position).mono fun _ _ hab => hab.1
  obtain ⟨_, _, ⟨removed, rfl, copied, hlength, rfl⟩, hcontinues⟩ :=
    Talk.Tells.continues hentry (fun host c b => c.removeAt host b position)
      (fun entry => Talk.tells_removeAt (Talk.serves_ofHost host entry t) hreads hwrites hp hin) hstep
  rw [hvalue] at hcontinues
  exact ⟨removed, copied, hlength, hcontinues⟩

theorem remove_of_not
    (hentry : (host.collectionWithBorder (some list) 1 "remove" .readingWriting).run s = .ok (c, b) t)
    (hp : position.getD b = p) (hout : ¬Collection.isRemovable b p = true) :
    requests (host.recorded.remove list position) s
      = requests (host.recorded.collectionWithBorder (some list) 1 "remove" .readingWriting) s ∧
    (host.remove list position).run s = .ok none t := by
  constructor
  · show requests (host.recorded.collectionWithBorder (some list) 1 "remove" .readingWriting
      >>= fun q => q.1.removeAt host.recorded q.2 position) s = _
    rw [requests_bind host hentry, Collection.removeAt_of_not _ _ hp hout]
    rfl
  · rw [Host.remove, run_bind, hentry]
    dsimp only
    rw [Collection.removeAt_of_not _ _ hp hout]
    rfl

end

/-- **At any border, a removal acts at the border itself and at `1, ..., border + 1`, where the border
has a successor of 64 bits; at any other position it does nothing.**  Where it acts it reads the
position first, moves down what is behind it up to the border, and ends by clearing the border, or the
position when that is behind it.  Where it does not, it asks for a length at most, and the result is
nothing. -/
theorem remove_accepts {σ : Type} (host : Host σ) {s t : σ} {list : Value} {c : Collection} {b : Int64}
    (hentry : (host.collectionWithBorder (some list) 1 "remove" .readingWriting).run s
      = .ok (c, b) t)
    (position : Option Int64) (p : Int64) (hp : position.getD b = p) :
    (p = b ∨ 1 ≤ p.toInt ∧ p.toInt ≤ b.toInt + 1 ∧ b.toInt + 1 < 2 ^ 63 →
      ∃ removed copied, copied.length = (b.toInt - p.toInt).toNat ∧
        Continues host (Request.perform host)
          (requests (host.recorded.collectionWithBorder (some list) 1 "remove" .readingWriting) s)
          s t (fun host => host.remove list position)
          (removePlan list b.toInt p.toInt removed copied) (some removed)) ∧
    (¬(p = b ∨ 1 ≤ p.toInt ∧ p.toInt ≤ b.toInt + 1 ∧ b.toInt + 1 < 2 ^ 63) →
      (∀ r ∈ requests (host.recorded.remove list position) s, r = .length list) ∧
      (host.remove list position).run s = .ok none t) := by
  have hremovable : Collection.isRemovable b p = true ↔
      p = b ∨ 1 ≤ p.toInt ∧ p.toInt ≤ b.toInt + 1 ∧ b.toInt + 1 < 2 ^ 63 := by
    rw [isRemovable_iff_fits, Int64.toInt_inj]
  refine ⟨fun hin => continues_remove host hentry hp (hremovable.mpr hin), fun hout => ?_⟩
  obtain ⟨hrequests, hrun⟩ := remove_of_not host hentry hp (mt hremovable.mp hout)
  rw [hrequests]
  exact ⟨requests_entry host list "remove" _ s, hrun⟩

/-! ## an object with a given border -/

/-- an object whose hooks answer one integer as its length, the same element at every position, and
nothing when it is written -/
def measuring (b : Int64) : Machine where
  heap := {
    tables := ⟨#[{}, ((({} : Table).setString indexHook (.function ⟨0⟩)).setString newIndexHook
      (.function ⟨1⟩)).setString lengthHook (.function ⟨2⟩)]⟩
    functions := ⟨#[⟨"element", .script [.mk (.finish [.single (.value (.integer 7))]) none]⟩,
      ⟨"ignore", .script []⟩,
      ⟨"length", .script [.mk (.finish [.single (.value (.integer b))]) none]⟩]⟩
    userdata := ⟨#[⟨some ⟨1⟩⟩]⟩ }
  globals := ⟨0⟩
  limits := {}

theorem measuring_entry (b : Int64) {function : String} :
    ((Machine.host EvalM.call).collectionWithBorder (some (.userdata ⟨0⟩)) 1 function
      .readingWriting).run (measuring b) = .ok (.protocol (.userdata ⟨0⟩) ⟨1⟩, b) (measuring b) := rfl

/-- below zero the border itself is the only position -/
theorem remove_accepts_negative :
    ((Machine.host EvalM.call).collectionWithBorder (some (.userdata ⟨0⟩)) 1 "remove"
      .readingWriting).run (measuring (-3))
        = .ok (.protocol (.userdata ⟨0⟩) ⟨1⟩, -3) (measuring (-3)) ∧
    (∃ removed copied, copied.length = 0 ∧
      Continues (Machine.host EvalM.call) (Request.perform (Machine.host EvalM.call))
        (requests ((Machine.host EvalM.call).recorded.collectionWithBorder (some (.userdata ⟨0⟩)) 1
          "remove" .readingWriting) (measuring (-3)))
        (measuring (-3)) (measuring (-3)) (fun host => host.remove (.userdata ⟨0⟩) none)
        (removePlan (.userdata ⟨0⟩) (-3) (-3) removed copied) (some removed)) ∧
    (∀ r ∈ requests ((Machine.host EvalM.call).recorded.remove (.userdata ⟨0⟩) (some 1))
      (measuring (-3)), r = .length (.userdata ⟨0⟩)) ∧
    ((Machine.host EvalM.call).remove (.userdata ⟨0⟩) (some 1)).run (measuring (-3))
      = .ok none (measuring (-3)) := by
  have hborder := remove_accepts (Machine.host EvalM.call) (measuring_entry (-3)) none (-3) rfl
  have hfirst := remove_accepts (Machine.host EvalM.call) (measuring_entry (-3)) (some 1) 1 rfl
  exact ⟨measuring_entry (-3), hborder.1 (Or.inl rfl), hfirst.2 (by decide)⟩

/-- At the greatest border, the position in front of it is within `1, ..., border + 1`, but nothing is
removed there: only the length is asked for. -/
theorem remove_before_greatest :
    (1 ≤ (Int64.maxValue - 1).toInt ∧ (Int64.maxValue - 1).toInt ≤ Int64.maxValue.toInt + 1) ∧
    ((Machine.host EvalM.call).collectionWithBorder (some (.userdata ⟨0⟩)) 1 "remove"
      .readingWriting).run (measuring Int64.maxValue)
        = .ok (.protocol (.userdata ⟨0⟩) ⟨1⟩, Int64.maxValue) (measuring Int64.maxValue) ∧
    requests ((Machine.host EvalM.call).recorded.remove (.userdata ⟨0⟩) (some (Int64.maxValue - 1)))
      (measuring Int64.maxValue) = [.length (.userdata ⟨0⟩)] ∧
    ((Machine.host EvalM.call).remove (.userdata ⟨0⟩) (some (Int64.maxValue - 1))).run
      (measuring Int64.maxValue) = .ok none (measuring Int64.maxValue) :=
  ⟨by decide, measuring_entry Int64.maxValue, rfl, rfl⟩

end ScriptTables
