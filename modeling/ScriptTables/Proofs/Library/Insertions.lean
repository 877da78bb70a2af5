import ScriptTables.Proofs.Library.Borders
import ScriptTables.Proofs.Library.Guards

/-!
# Insertions at any border

An insertion computes the position behind the border, and where it moves elements up it computes the
position of each.  Here these sums and differences are taken only when they fit into 64 bits.  At the
greatest border there is no position behind it, and what is put at the end is stored at the least
position instead.

* `Collection.checkedInsertAt`   an insertion whose arithmetic is checked;
* `checkedInsertAt_eq`           where it is the insertion itself;
* `StoresWithin`                 plans for elements at some positions that end with a write to the first;
* `insert_within`                what an insertion does at the positions that it accepts and at others;
* `insert_behind_greatest`       the greatest border.
-/

namespace ScriptTables

/-! ## arithmetic of an insertion -/

namespace Collection

section
variable {σ : Type} (host : Host σ) (c : Collection)

def checkedShiftUp : Nat → Int64 → Option (Action σ Unit)
  | 0, _ => some (pure ())
  | n + 1, top => do
    let below ← checkedSub top 1
    let rest ← checkedShiftUp n below
    some do
      let v ← c.get host below.toInt
      c.set host top.toInt v
      rest

/-- An insertion in 64 bits.  It is `none` where it comes to a sum or a difference that does not fit. -/
def checkedInsertAt (border : Int64) (position : Option Int64) (v : Value) : Option (Action σ Unit) :=
  match position with
  | none => do
    let last ← checkedAdd border 1
    some (c.set host last.toInt v)
  | some position =>
    if position < 1 ∨ border + 1 < position then
      some (fail (.badArgument 2 "insert" .positionOutOfBounds))
    else do
      let last ← checkedAdd border 1
      let lowest ← checkedAdd position 1
      let shift ← c.checkedShiftUp host (last.toInt - lowest.toInt + 1).toNat last
      some do
        shift
        c.set host position.toInt v

theorem checkedShiftUp_eq {n : Nat} {top : Int64} (h : -2 ^ 63 ≤ top.toInt - n) :
    c.checkedShiftUp host n top = some (c.shiftUp host n top.toInt) := by
  induction n generalizing top with
  | zero => rfl
  | succ n ih =>
    have hone : (1 : Int64).toInt = 1 := rfl
    have htop := top.toInt_lt
    obtain ⟨below, hbelow, hvalue⟩ := exists_checkedSub (a := top) (b := 1) (by omega) (by omega)
    rw [checkedShiftUp, hbelow, Option.bind_eq_bind, Option.bind_some, ih (by omega), hvalue, hone]
    rfl

theorem insertAt_of_not {b p : Int64}
    (h : ¬(1 ≤ p.toInt ∧ p.toInt ≤ b.toInt + 1 ∧ b.toInt + 1 < 2 ^ 63)) (v : Value) :
    c.insertAt host b (some p) v = fail (.badArgument 2 "insert" .positionOutOfBounds) := by
  rw [insertAt]
  exact if_pos (Decidable.not_not.mp (mt accepts_iff.mp h))

theorem checkedInsertAt_append (b : Int64) (v : Value) :
    c.checkedInsertAt host b none v
      = if b = Int64.maxValue then none else some (c.insertAt host b none v) := by
  have hone : (1 : Int64).toInt = 1 := rfl
  have hlow := b.le_toInt
  split
  · next hgreatest =>
    rw [hgreatest]
    rfl
  · next hne =>
    have hfits := succ_fits_iff.mpr hne
    obtain ⟨last, hlast, hvalue⟩ := exists_checkedAdd (a := b) (b := 1) (by omega) (by omega)
    rw [checkedInsertAt, hlast, Option.bind_eq_bind, Option.bind_some, insertAt, appendPosition,
      toInt_succ hfits, hvalue, hone]

theorem checkedInsertAt_of_not {b p : Int64}
    (h : ¬(1 ≤ p.toInt ∧ p.toInt ≤ b.toInt + 1 ∧ b.toInt + 1 < 2 ^ 63)) (v : Value) :
    c.checkedInsertAt host b (some p) v = some (c.insertAt host b (some p) v) := by
  have hone : (1 : Int64).toInt = 1 := rfl
  have hout : p < 1 ∨ b + 1 < p := by
    rw [Int64.lt_iff_toInt_lt, Int64.lt_iff_toInt_lt, hone]
    exact Decidable.not_not.mp (mt accepts_iff.mp h)
  rw [checkedInsertAt, if_pos hout, insertAt_of_not host c h]

theorem checkedInsertAt_of_accepted {b p : Int64}
    (h : 1 ≤ p.toInt ∧ p.toInt ≤ b.toInt + 1 ∧ b.toInt + 1 < 2 ^ 63) (v : Value) :
    c.checkedInsertAt host b (some p) v
      = if p = Int64.maxValue then none else some (c.insertAt host b (some p) v) := by
  have hone : (1 : Int64).toInt = 1 := rfl
  have hin : ¬(p < 1 ∨ b + 1 < p) := by
    rw [Int64.lt_iff_toInt_lt, Int64.lt_iff_toInt_lt, hone]
    exact accepts_iff.mpr h
  obtain ⟨last, hlast, hend⟩ := exists_checkedAdd (a := b) (b := 1) (by omega) (by omega)
  rw [checkedInsertAt, if_neg hin, hlast, Option.bind_eq_bind, Option.bind_some]
  split
  · next hgreatest =>
    rw [hgreatest]
    rfl
  · next hne =>
    have hfits := succ_fits_iff.mpr hne
    obtain ⟨lowest, hlowest, hstart⟩ := exists_checkedAdd (a := p) (b := 1) (by omega) (by omega)
    have hcount : last.toInt - lowest.toInt + 1 = b.toInt + 1 - p.toInt := by omega
    have hlaps : shiftCount b p = (b.toInt + 1 - p.toInt).toNat := by
      rw [shiftCount_eq hfits, appendPosition, toInt_succ h.2.2]
    rw [hlowest, Option.bind_eq_bind, Option.bind_some, hcount,
      checkedShiftUp_eq host c (by omega), Option.bind_some, insertAt,
      if_neg (accepts_iff.mpr h), hlaps, appendPosition, toInt_succ h.2.2, hend, hone]

/-- **A sum is out of range in two cases:** behind the greatest border, and where the greatest position
is accepted. -/
theorem checkedInsertAt_eq (b : Int64) (position : Option Int64) (v : Value) :
    c.checkedInsertAt host b position v =
      if position = none ∧ b = Int64.maxValue
        ∨ position = some Int64.maxValue ∧ b = Int64.maxValue - 1 then none
      else some (c.insertAt host b position v) := by
  cases position with
  | none => simp [checkedInsertAt_append]
  | some p =>
    by_cases h : 1 ≤ p.toInt ∧ p.toInt ≤ b.toInt + 1 ∧ b.toInt + 1 < 2 ^ 63
    · rw [checkedInsertAt_of_accepted host c h]
      refine if_congr ⟨fun hp => ?_, fun hcases => ?_⟩ rfl rfl
      · have hvalue := congrArg Int64.toInt hp
        rw [Int64.toInt_maxValue] at hvalue
        refine Or.inr ⟨congrArg some hp, Int64.toInt_inj.mp ?_⟩
        show b.toInt = 2 ^ 63 - 1 - 1
        omega
      · rcases hcases with ⟨hnone, -⟩ | ⟨hsome, -⟩
        · cases hnone
        · exact Option.some.inj hsome
    · rw [checkedInsertAt_of_not host c h, if_neg]
      rintro (⟨hnone, -⟩ | ⟨hsome, rfl⟩)
      · cases hnone
      · refine h ?_
        rw [Option.some.inj hsome]
        decide

end

end Collection

/-! ## what is read and written -/

def Request.At (object : Value) (i : Int) (r : Request) : Prop :=
  ∃ k : Int64, k.toInt = i ∧ (r = .index object (.integer k) ∨ ∃ v, r = .setIndex object (.integer k) v)

/-- every request is for an element at a position of `lo, ..., hi`, and the last one stores a value at
`lo` -/
structure StoresWithin (object : Value) (lo hi : Int) (v : Value) (plan : Plan) : Prop where
  within : ∀ x ∈ plan, ∃ i, lo ≤ i ∧ i ≤ hi ∧ x.1.At object i
  stores : ∃ k : Int64, k.toInt = lo ∧ plan.getLast? = some (.setIndex object (.integer k) v, .nil)

theorem storesWithin_insertPlan (object : Value) {last p : Int} (hlow : -2 ^ 63 ≤ p) (hle : p ≤ last)
    (hhigh : last < 2 ^ 63) (v : Value) (copied : List Value) :
    StoresWithin object p last v (insertPlan object last p v copied) := by
  have hfits : ∀ i, p ≤ i → i ≤ last → (Int64.ofInt i).toInt = i :=
    fun i _ _ => Int64.toInt_ofInt_of_le (by omega) (by omega)
  refine ⟨fun x hx => ?_, _, hfits p (Int.le_refl p) hle, List.getLast?_concat⟩
  rcases List.mem_append.mp hx with hcopy | hstore
  · obtain ⟨q, hq, hrequest⟩ := mem_copyPlan hcopy
    have hq := mem_upward.mp (List.mem_reverse.mp hq)
    rcases hrequest with hread | ⟨w, hwrite⟩
    · exact ⟨q.1, by omega, by omega, _, hfits q.1 (by omega) (by omega), Or.inl hread⟩
    · exact ⟨q.2, by omega, by omega, _, hfits q.2 (by omega) (by omega), Or.inr ⟨w, hwrite⟩⟩
  · rw [List.mem_singleton.mp hstore]
    exact ⟨p, Int.le_refl p, hle, _, hfits p (Int.le_refl p) hle, Or.inr ⟨v, rfl⟩⟩

theorem Talk.tells_insertion {σ : Type} {k : Talk σ} {host : Host σ} {A : Request → Prop}
    {c : Collection} {plan : Plan} (h : k.Serves host A) (hr : Reads A c) (hw : Writes A c) {b : Int64}
    {position : Option Int64} {p : Int} (hp : position.elim (b.toInt + 1) Int64.toInt = p)
    (hfits : b.toInt + 1 < 2 ^ 63)
    (hin : position = none ∨ 1 ≤ p ∧ p ≤ b.toInt + 1 ∧ p + 1 < 2 ^ 63) (v : Value) :
    k.Tells plan (c.insertAt host.recorded b position v) fun _ =>
      Copying (b.toInt + 1 - p).toNat (insertPlan c.value (b.toInt + 1) p v) := by
  have hlast : Collection.appendPosition b = b.toInt + 1 := toInt_succ hfits
  cases position with
  | none =>
    obtain rfl : b.toInt + 1 = p := hp
    have hcount : (b.toInt + 1 - (b.toInt + 1)).toNat = 0 := by omega
    rw [Collection.insertAt, hlast]
    refine (tells_set h hw _ v).mono fun _ more hmore => ⟨[], ?_, ?_⟩
    · rw [hcount]
      rfl
    · rw [hmore, insertPlan, hcount]
      rfl
  | some q =>
    obtain ⟨hlow, hhigh, hstart⟩ := hin.resolve_left (Option.some_ne_none q)
    rw [← hlast] at hp hhigh ⊢
    exact tells_insertAt h hr hw hp hlow hhigh (Or.inr hstart) v

section
variable {σ : Type} (host : Host σ) {s t : σ} {list : Value} {c : Collection} {b : Int64} {p : Int}
  {position : Option Int64}

theorem continues_insert
    (hentry : (host.collectionWithBorder (some list) 1 "insert" .readingWriting).run s = .ok (c, b) t)
    (hp : position.elim (b.toInt + 1) Int64.toInt = p) (hfits : b.toInt + 1 < 2 ^ 63)
    (hin : position = none ∨ 1 ≤ p ∧ p ≤ b.toInt + 1 ∧ p + 1 < 2 ^ 63) (v : Value) :
    ∃ copied, copied.length = (b.toInt + 1 - p).toNat ∧
      Continues host (Request.perform host)
        (requests (host.recorded.collectionWithBorder (some list) 1 "insert" .readingWriting) s) s t
        (fun host => host.insert list position v) (insertPlan list (b.toInt + 1) p v copied) () := by
  have hvalue := value_of_entry host hentry
  have hreads : Talk.Reads (fun _ => True) c := fun _ => trivial
  have hwrites : Talk.Writes (fun _ => True) c := fun _ _ => trivial
  have hstep : InStep Recorded.Of (· = ·) (c.insertAt host.recorded b position v)
      (c.insertAt host b position v) :=
    host.recorded_matching.companions.insertAt rfl b position trivial
  have htells : ∀ entry, (Talk.ofHost host entry t).Tells [] (c.insertAt host.recorded b position v)
      fun _ => Talk.Copying (b.toInt + 1 - p).toNat (insertPlan c.value (b.toInt + 1) p v) :=
    fun entry => Talk.tells_insertion (Talk.serves_ofHost host entry t) hreads hwrites hp hfits hin v
  obtain ⟨_, _, ⟨copied, hlength, rfl⟩, hcontinues⟩ :=
    Talk.Tells.continues hentry (fun host c b => c.insertAt host b position v) htells hstep
  rw [hvalue] at hcontinues
  exact ⟨copied, hlength, hcontinues⟩

theorem insert_of_not {q : Int64}
    (hentry : (host.collectionWithBorder (some list) 1 "insert" .readingWriting).run s = .ok (c, b) t)
    (hout : ¬(1 ≤ q.toInt ∧ q.toInt ≤ b.toInt + 1 ∧ b.toInt + 1 < 2 ^ 63)) (v : Value) :
    requests (host.recorded.insert list (some q) v) s
      = requests (host.recorded.collectionWithBorder (some list) 1 "insert" .readingWriting) s ∧
    (host.insert list (some q) v).run s
      = .error ⟨.badArgument 2 "insert" .positionOutOfBounds, []⟩ t := by
  constructor
  · show requests (host.recorded.collectionWithBorder (some list) 1 "insert" .readingWriting
      >>= fun e => e.1.insertAt host.recorded e.2 (some q) v) s = _
    rw [requests_bind host hentry, Collection.insertAt_of_not _ _ hout]
    rfl
  · rw [Host.insert, run_bind, hentry]
    dsimp only
    rw [Collection.insertAt_of_not _ _ hout]
    rfl

end

/-- **An insertion keeps to the positions from its own one to the one behind the border.**  The value is
stored at exactly the position, and no sum is out of range.  A position outside of `1, ..., border + 1`
is refused, and the elements are not touched.  Two cases are excepted: the end behind the greatest
border, and the greatest position where it is accepted.  These are the ones in which a sum is out of
range. -/
theorem insert_within {σ : Type} (host : Host σ) {s t : σ} {list : Value} {c : Collection} {b : Int64}
    (hentry : (host.collectionWithBorder (some list) 1 "insert" .readingWriting).run s
      = .ok (c, b) t)
    (position : Option Int64) (v : Value) (p : Int)
    (hp : position.elim (b.toInt + 1) Int64.toInt = p) :
    (b.toInt + 1 < 2 ^ 63 ∧ (position = none ∨ 1 ≤ p ∧ p ≤ b.toInt + 1 ∧ p + 1 < 2 ^ 63) →
      ∃ copied, copied.length = (b.toInt + 1 - p).toNat ∧
        StoresWithin list p (b.toInt + 1) v (insertPlan list (b.toInt + 1) p v copied) ∧
        Continues host (Request.perform host)
          (requests (host.recorded.collectionWithBorder (some list) 1 "insert" .readingWriting) s) s t
          (fun host => host.insert list position v) (insertPlan list (b.toInt + 1) p v copied) ()) ∧
    (position ≠ none ∧ ¬(1 ≤ p ∧ p ≤ b.toInt + 1 ∧ b.toInt + 1 < 2 ^ 63) →
      (∀ r ∈ requests (host.recorded.insert list position v) s, r = .length list) ∧
      (host.insert list position v).run s
        = .error ⟨.badArgument 2 "insert" .positionOutOfBounds, []⟩ t) ∧
    c.checkedInsertAt host b position v =
      if position = none ∧ b = Int64.maxValue
        ∨ position = some Int64.maxValue ∧ b = Int64.maxValue - 1 then none
      else some (c.insertAt host b position v) := by
  refine ⟨?_, ?_, c.checkedInsertAt_eq host b position v⟩
  · rintro ⟨hfits, hin⟩
    have hbounds : -2 ^ 63 ≤ p ∧ p ≤ b.toInt + 1 := by
      have hborder := b.le_toInt
      rcases hin with rfl | hin
      · obtain rfl : b.toInt + 1 = p := hp
        omega
      · omega
    obtain ⟨copied, hlength, hcontinues⟩ := continues_insert host hentry hp hfits hin v
    exact ⟨copied, hlength, storesWithin_insertPlan list hbounds.1 hbounds.2 hfits v copied,
      hcontinues⟩
  · rintro ⟨hsome, hout⟩
    obtain ⟨q, rfl⟩ := Option.ne_none_iff_exists'.mp hsome
    obtain rfl : q.toInt = p := hp
    obtain ⟨hrequests, hrun⟩ := insert_of_not host hentry hout v
    rw [hrequests]
    exact ⟨requests_entry host list "insert" _ s, hrun⟩

/-- in front of the greatest border the end is the greatest position -/
theorem insert_within_greatest :
    ((Machine.host EvalM.call).collectionWithBorder (some (.userdata ⟨0⟩)) 1 "insert"
      .readingWriting).run (measuring (Int64.maxValue - 1))
        = .ok (.protocol (.userdata ⟨0⟩) ⟨1⟩, Int64.maxValue - 1) (measuring (Int64.maxValue - 1)) ∧
    (∃ copied, copied.length = 0 ∧
      StoresWithin (.userdata ⟨0⟩) (2 ^ 63 - 1) (2 ^ 63 - 1) (.integer 7)
        (insertPlan (.userdata ⟨0⟩) (2 ^ 63 - 1) (2 ^ 63 - 1) (.integer 7) copied) ∧
      Continues (Machine.host EvalM.call) (Request.perform (Machine.host EvalM.call))
        (requests ((Machine.host EvalM.call).recorded.collectionWithBorder (some (.userdata ⟨0⟩)) 1
          "insert" .readingWriting) (measuring (Int64.maxValue - 1)))
        (measuring (Int64.maxValue - 1)) (measuring (Int64.maxValue - 1))
        (fun host => host.insert (.userdata ⟨0⟩) none (.integer 7))
        (insertPlan (.userdata ⟨0⟩) (2 ^ 63 - 1) (2 ^ 63 - 1) (.integer 7) copied) ()) ∧
    ((Machine.host EvalM.call).insert (.userdata ⟨0⟩) (some 1) (.integer 7)).run (measuring (-3))
      = .error ⟨.badArgument 2 "insert" .positionOutOfBounds, []⟩ (measuring (-3)) := by
  have hend := insert_within (Machine.host EvalM.call) (measuring_entry (Int64.maxValue - 1)) none
    (.integer 7) (2 ^ 63 - 1) rfl
  have hfirst := insert_within (Machine.host EvalM.call) (measuring_entry (-3)) (some 1) (.integer 7) 1
    rfl
  exact ⟨measuring_entry (Int64.maxValue - 1), hend.1 ⟨by decide, Or.inl rfl⟩,
    (hfirst.2.1 ⟨by decide, by decide⟩).2⟩

/-- Behind the greatest border, what is put at the end is stored at the least position. -/
theorem insert_behind_greatest :
    ((Machine.host EvalM.call).collectionWithBorder (some (.userdata ⟨0⟩)) 1 "insert"
      .readingWriting).run (measuring Int64.maxValue)
        = .ok (.protocol (.userdata ⟨0⟩) ⟨1⟩, Int64.maxValue) (measuring Int64.maxValue) ∧
    requests ((Machine.host EvalM.call).recorded.insert (.userdata ⟨0⟩) none (.integer 7))
      (measuring Int64.maxValue)
        = [.length (.userdata ⟨0⟩),
          .setIndex (.userdata ⟨0⟩) (.integer Int64.minValue) (.integer 7)] ∧
    Int64.minValue.toInt < Int64.maxValue.toInt + 1 ∧
    ((Machine.host EvalM.call).insert (.userdata ⟨0⟩) none (.integer 7)).run
      (measuring Int64.maxValue) = .ok () (measuring Int64.maxValue) :=
  ⟨measuring_entry Int64.maxValue, rfl, by decide, rfl⟩

end ScriptTables
