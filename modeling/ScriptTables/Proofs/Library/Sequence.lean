import Mathlib.Data.List.InsertIdx
import ScriptTables.Machine.Call
import ScriptTables.Proofs.Library.Shifting
import ScriptTables.Proofs.Table.Border
import ScriptTables.Proofs.Trace

/-!
# A plain table as a sequence

Inserting into a plain table and removing from it, step after step, against insertion and deletion in
a list.

* `Sequence`, `Edit`         a list, and what is done to it;
* `Sequence.edit`            one edit of the list, with its result or error;
* `Edit.run`                 the same edit of a table, or of any other value;
* `Sequence.HeldBy`          a table holds a sequence;
* `edits_refine`             a run of edits of a table that holds a sequence.
-/

namespace ScriptTables

/-! ## sequences -/

abbrev Element := {v : Value // v ≠ .nil}

/-- A list, and the value that a table has under zero: removing from the empty list takes it. -/
structure Sequence where
  items : List Element
  zero : Value

inductive Edit where
  | insert (position : Option Int64) (v : Element)
  | remove (position : Option Int64)

namespace Sequence

def length (s : Sequence) : Nat := s.items.length

/-- the element with a number that counts from zero, or `nil` -/
def item (s : Sequence) (n : Nat) : Value := (s.items[n]?).elim .nil Subtype.val

/-- the position behind the last element is an integer -/
def Fits (s : Sequence) : Prop := s.length + 1 < 2 ^ 63

def insert (s : Sequence) (position : Option Int64) (v : Element) :
    Except Error (Option Value) × Sequence :=
  match position with
  | none => (.ok none, { s with items := s.items ++ [v] })
  | some p =>
    if 1 ≤ p.toInt ∧ p.toInt ≤ s.length + 1 then
      (.ok none, { s with items := s.items.insertIdx (p.toInt.toNat - 1) v })
    else (.error ⟨.badArgument 2 "insert" .positionOutOfBounds, []⟩, s)

def remove (s : Sequence) (position : Option Int64) : Except Error (Option Value) × Sequence :=
  let p := position.elim (s.length : Int) Int64.toInt
  if 1 ≤ p ∧ p ≤ s.length then
    (.ok (some (s.item (p.toNat - 1))), { s with items := s.items.eraseIdx (p.toNat - 1) })
  else if p = s.length + 1 then (.ok (some .nil), s)
  else if p = 0 ∧ s.length = 0 then (.ok (some s.zero), { s with zero := .nil })
  else (.ok none, s)

def edit : Edit → Sequence → Except Error (Option Value) × Sequence
  | .insert position v, s => s.insert position v
  | .remove position, s => s.remove position

end Sequence

def Edit.run {σ : Type} (host : Host σ) (list : Value) : Edit → Action σ (Option Value)
  | .insert position v => do
    host.insert list position v.1
    pure none
  | .remove position => host.remove list position

/-! ## values as a sequence -/

/-- the keys that an edit leaves alone: all but the integers from zero on -/
def Key.Apart (k : Key) : Prop := ∀ n : Int64, 0 ≤ n.toInt → k ≠ .integer n

theorem Key.Apart.low {k : Key} (hk : k.Apart) : k.Low := fun n hn => hk n (by omega)

theorem low_zero : (Key.integer 0).Low := by
  intro n hn hzero
  cases hzero
  exact absurd hn (by decide)

namespace Sequence

/-- values under keys that are the elements of a sequence, and `g` apart from them -/
structure ReadBy (s : Sequence) (g f : Key → Value) : Prop where
  item : ∀ k : Int64, 1 ≤ k.toInt → f (.integer k) = s.item (k.toInt.toNat - 1)
  zero : f (.integer 0) = s.zero
  apart : ∀ k : Key, k.Apart → f k = g k

variable {s : Sequence} {f g : Key → Value}

theorem item_of_le {n : Nat} (h : s.length ≤ n) : s.item n = .nil := by
  rw [item, List.getElem?_eq_none h]
  rfl

theorem item_ne_nil {n : Nat} (h : n < s.length) : s.item n ≠ .nil := by
  rw [item, List.getElem?_eq_getElem h]
  exact (s.items[n]).2

theorem item_ne_nil_iff {n : Nat} : s.item n ≠ .nil ↔ n < s.length :=
  ⟨fun h => Nat.lt_of_not_le fun hle => h (item_of_le hle), item_ne_nil⟩

/-- the keys of a well-formed table that holds a sequence leave its border no choice -/
theorem ReadBy.border {t : Table} (h : s.ReadBy g t.getKey) (ht : t.WellFormed)
    (hfits : s.Fits) (hborder : t.border < 2 ^ 63) : t.border = s.length := by
  have hfits : s.length + 1 < 2 ^ 63 := hfits
  have hlast : (Int64.ofNat t.border).toInt = t.border := toInt_position hborder
  have hlength : (Int64.ofNat s.length).toInt = s.length := toInt_position (by omega)
  have heq := ht.border_eq (n := Int64.ofNat t.border) (m := Int64.ofNat s.length) hlast
    (by omega) fun k hk => by
      rw [hlength, ← Table.getKey_integer, h.item k hk, item_ne_nil_iff]
      omega
  rw [heq] at hlast
  omega

/-! ## edits of what is read -/

theorem ReadBy.inserted (h : s.ReadBy g f) (hfits : s.Fits) {p : Int} (hlow : 1 ≤ p)
    (hhigh : p ≤ s.length + 1) (v : Element) :
    ReadBy { s with items := s.items.insertIdx (p.toNat - 1) v } g
      (inserted f s.length p v.1) := by
  have hfits : s.length + 1 < 2 ^ 63 := hfits
  have hlen : s.items.length = s.length := rfl
  refine ⟨fun k hk => ?_, ?_, fun k hk => ?_⟩
  · have hk' := k.toInt_lt
    rw [inserted_integer f (by omega) (by omega)]
    show _ = ((s.items.insertIdx (p.toNat - 1) v)[k.toInt.toNat - 1]?).elim .nil Subtype.val
    rw [List.getElem?_insertIdx]
    rcases Int.lt_trichotomy k.toInt p with hlt | heq | hgt
    · rw [if_neg (by omega), if_neg (by omega), if_pos (by omega), h.item k hk]
      rfl
    · rw [if_pos heq, if_neg (by omega), if_pos (by omega), if_pos (by omega)]
      rfl
    · have hprev : (Int64.ofInt (k.toInt - 1)).toInt = k.toInt - 1 :=
        Int64.toInt_ofInt_of_le (by omega) (by omega)
      rw [if_neg (show ¬k.toInt.toNat - 1 < p.toNat - 1 by omega),
        if_neg (show ¬k.toInt.toNat - 1 = p.toNat - 1 by omega), if_neg (by omega)]
      show _ = s.item (k.toInt.toNat - 1 - 1)
      by_cases hend : k.toInt ≤ s.length + 1
      · rw [if_pos ⟨hgt, hend⟩, h.item _ (by omega), hprev]
        congr 1
        omega
      · rw [if_neg (by omega), h.item k hk, item_of_le (by omega), item_of_le (by omega)]
  · rw [inserted_low f hlow (by omega) v.1 low_zero, h.zero]
  · rw [inserted_low f hlow (by omega) v.1 hk.low, h.apart k hk]

theorem ReadBy.removed (h : s.ReadBy g f) (hfits : s.Fits) {p : Int} (hlow : 1 ≤ p)
    (hhigh : p ≤ s.length + 1) :
    ReadBy { s with items := s.items.eraseIdx (p.toNat - 1) } g (removed f s.length p) := by
  have hfits : s.length + 1 < 2 ^ 63 := hfits
  refine ⟨fun k hk => ?_, ?_, fun k hk => ?_⟩
  · have hk' := k.toInt_lt
    rw [removed_integer f (by omega) (by omega) (by omega)]
    show _ = ((s.items.eraseIdx (p.toNat - 1))[k.toInt.toNat - 1]?).elim .nil Subtype.val
    rw [List.getElem?_eraseIdx]
    by_cases hbefore : k.toInt < p
    · rw [if_neg (by omega), if_neg (by omega), if_pos (by omega), h.item k hk]
      rfl
    · rw [if_neg (show ¬k.toInt.toNat - 1 < p.toNat - 1 by omega)]
      show _ = s.item (k.toInt.toNat - 1 + 1)
      by_cases hin : k.toInt < s.length
      · have hnext : (Int64.ofInt (k.toInt + 1)).toInt = k.toInt + 1 :=
          Int64.toInt_ofInt_of_le (by omega) (by omega)
        rw [if_neg (by omega), if_pos (by omega), h.item _ (by omega), hnext]
        congr 1
        omega
      · rw [item_of_le (n := k.toInt.toNat - 1 + 1) (by omega)]
        by_cases hend : k.toInt = max p s.length
        · rw [if_pos hend]
        · rw [if_neg hend, if_neg (by omega), h.item k hk, item_of_le (by omega)]
  · rw [removed_low f hlow (by omega) (by omega) low_zero, h.zero]
  · rw [removed_low f hlow (by omega) (by omega) hk.low, h.apart k hk]

theorem ReadBy.removed_zero (h : s.ReadBy g f) :
    ReadBy { s with zero := .nil } g (ScriptTables.removed f 0 0) := by
  refine ⟨fun k hk => ?_, ?_, fun k hk => ?_⟩
  · rw [removed_integer f (by omega) (by omega) (by omega), if_neg (by omega), if_neg (by omega),
      h.item k hk]
    rfl
  · rw [removed_integer f (by omega) (by omega) (by omega)]
    rfl
  · cases k with
    | integer k =>
      have hneg : ¬0 ≤ k.toInt := fun hpos => hk k hpos rfl
      rw [removed_integer f (by omega) (by omega) (by omega), if_neg (by omega), if_neg (by omega),
        h.apart _ hk]
    | _ =>
      rw [← h.apart _ hk]
      exact update_of_not_integer _ _ _ nofun

end Sequence

/-! ## one edit of a table -/

/-- A plain table holds a sequence, and nothing else changed since `m`. -/
structure Sequence.HeldBy (s : Sequence) (id : TableId) (m t : Machine) : Prop
    extends OnlyTable id m t where
  readBy : s.ReadBy (m.heap.table id).getKey (t.heap.table id).getKey
  border : (t.heap.table id).border = s.length

section
variable {call : Caller} {id : TableId} {m t : Machine} {s : Sequence} {f : Key → Value}

theorem Filled.heldBy (h : Filled id m f t) (hs : s.ReadBy (m.heap.table id).getKey f)
    (hfits : s.Fits) : s.HeldBy id m t := by
  have hread : (t.heap.table id).getKey = f := funext h.getKey
  rw [← hread] at hs
  exact ⟨h.toOnlyTable, hs, hs.border h.plain.wellFormed hfits h.fits⟩

theorem Sequence.HeldBy.filled (h : s.HeldBy id m t) : Filled id m (t.heap.table id).getKey t :=
  ⟨h.toOnlyTable, fun _ => rfl⟩

theorem Sequence.insert_of_le {position : Option Int64} {p : Int}
    (hp : position.elim (s.length + 1 : Int) Int64.toInt = p) (hlow : 1 ≤ p)
    (hhigh : p ≤ s.length + 1) (v : Element) :
    s.insert position v
      = (.ok none, { s with items := s.items.insertIdx (p.toNat - 1) v }) := by
  cases position with
  | none =>
    have hlast : p.toNat - 1 = s.items.length := by
      have hp : (s.items.length + 1 : Int) = p := hp
      omega
    rw [hlast, List.insertIdx_length_self]
    rfl
  | some position =>
    have hp : position.toInt = p := hp
    subst hp
    exact if_pos ⟨hlow, hhigh⟩

theorem Sequence.length_inserted {n : Nat} (hn : n ≤ s.length) (v : Element) :
    (⟨s.items.insertIdx n v, s.zero⟩ : Sequence).length = s.length + 1 :=
  List.length_insertIdx_of_le_length hn v

theorem Sequence.remove_of_le {position : Option Int64} {p : Int}
    (hp : position.elim (s.length : Int) Int64.toInt = p) (hlow : 1 ≤ p) (hhigh : p ≤ s.length + 1) :
    s.remove position = (.ok (some (s.item (p.toNat - 1))),
      { s with items := s.items.eraseIdx (p.toNat - 1) }) := by
  unfold Sequence.remove
  rw [hp]
  dsimp only
  by_cases hend : p ≤ s.length
  · rw [if_pos ⟨hlow, hend⟩]
  · have hlast : s.items.length ≤ p.toNat - 1 := by
      have hend : ¬p ≤ s.items.length := hend
      omega
    rw [if_neg (by omega), if_pos (by omega), Sequence.item_of_le hlast,
      List.eraseIdx_of_length_le hlast]

theorem Sequence.remove_zero {position : Option Int64}
    (hp : position.elim (s.length : Int) Int64.toInt = 0) (hempty : s.length = 0) :
    s.remove position = (.ok (some s.zero), { s with zero := .nil }) := by
  unfold Sequence.remove
  rw [hp]
  dsimp only
  rw [if_neg (by omega), if_neg (by omega), if_pos ⟨rfl, hempty⟩]

theorem Sequence.remove_outside {position : Option Int64} {p : Int}
    (hp : position.elim (s.length : Int) Int64.toInt = p) (hin : ¬(1 ≤ p ∧ p ≤ s.length + 1))
    (hzero : ¬(p = 0 ∧ s.length = 0)) : s.remove position = (.ok none, s) := by
  unfold Sequence.remove
  rw [hp]
  dsimp only
  rw [if_neg (by omega), if_neg (by omega), if_neg hzero]

/-- an edit ends as it does on the sequence, and the table holds what the sequence has become -/
def Refines (call : Caller) (id : TableId) (m : Machine) (s : Sequence) (e : Edit) : Prop :=
  Ends (s.HeldBy id m) (e.run (Machine.host call) (.table id))
    (fun r t => (s.edit e).1 = .ok r ∧ (s.edit e).2.HeldBy id m t)
    fun err t => (s.edit e).1 = .error err ∧ (s.edit e).2.HeldBy id m t

theorem ends_withBorder {α : Type} {position : Nat} {function : String} {required : Capabilities}
    {k : Collection × Int64 → EvalM α} {Q : α → Machine → Prop} {E : Error → Machine → Prop}
    (h : ∀ f, s.ReadBy (m.heap.table id).getKey f →
      Ends (Filled id m f) (k (.native id, Int64.ofNat s.length)) Q E) :
    Ends (s.HeldBy id m) ((Machine.host call).collectionWithBorder (some (.table id)) position
      function required >>= k) Q E := by
  intro t ht
  rw [run_bind, collectionWithBorder_table, ht.border]
  exact h _ ht.readBy t ht.filled

theorem refines_insert (hlinks : m.limits.maxMetaChain ≠ 0) (hfits : s.Fits)
    (position : Option Int64) (v : Element) (hnext : (s.insert position v).2.Fits) :
    Refines call id m s (.insert position v) := by
  have hfits' : s.length + 1 < 2 ^ 63 := hfits
  have hborder : (Int64.ofNat s.length).toInt = s.length := toInt_position (by omega)
  unfold Refines Edit.run Host.insert
  simp only [bind_assoc]
  refine ends_withBorder fun f hf => ?_
  dsimp only [Sequence.edit]
  by_cases hin : 1 ≤ position.elim (s.length + 1 : Int) Int64.toInt ∧
      position.elim (s.length + 1 : Int) Int64.toInt ≤ s.length + 1
  · obtain ⟨hlow, hhigh⟩ := hin
    rw [Sequence.insert_of_le rfl hlow hhigh] at hnext ⊢
    -- the sequence has grown, and still fits
    have hgrown : (⟨s.items.insertIdx _ v, s.zero⟩ : Sequence).length + 1 < 2 ^ 63 := hnext
    rw [Sequence.length_inserted (by omega)] at hgrown
    have hstart : position.elim (s.length + 1 : Int) Int64.toInt + 1 < 2 ^ 63 := by omega
    refine Ends.bind ((ends_insertAt hlinks v.1 (by omega) (by rw [hborder]) hlow (by omega)
      (Or.inr hstart)).mono (fun _ ht => ht) (fun _ _ ht => ht) fun _ _ he => he.elim) fun _ => ?_
    refine Ends.pure fun t ht => ⟨rfl, ht.heldBy ?_ hnext⟩
    rw [hborder]
    exact hf.inserted hfits hlow hhigh v
  · cases position with
    | none =>
      have hlast : ¬(1 ≤ (s.length + 1 : Int) ∧ (s.length + 1 : Int) ≤ s.length + 1) := hin
      omega
    | some position =>
      have hout : ¬(1 ≤ position.toInt ∧ position.toInt ≤ s.length + 1) := hin
      have hlast : Collection.appendPosition (Int64.ofNat s.length) = s.length + 1 := by
        rw [← hborder]
        exact toInt_succ (by omega)
      rw [Sequence.insert, if_neg hout]
      dsimp only [Collection.insertAt]
      rw [hlast, if_pos (by omega)]
      exact fun t ht => ⟨rfl, ht.heldBy hf hfits⟩

theorem refines_remove (hlinks : m.limits.maxMetaChain ≠ 0) (hfits : s.Fits)
    (position : Option Int64) (hnext : (s.remove position).2.Fits) :
    Refines call id m s (.remove position) := by
  have hfits' : s.length + 1 < 2 ^ 63 := hfits
  have hborder : (Int64.ofNat s.length).toInt = s.length := toInt_position (by omega)
  unfold Refines Edit.run Host.remove
  refine ends_withBorder fun f hf => ?_
  dsimp only [Sequence.edit]
  have hposition : (position.getD (Int64.ofNat s.length)).toInt
      = position.elim (s.length : Int) Int64.toInt := by
    cases position with
    | none => exact hborder
    | some position => rfl
  have hremovable : Collection.isRemovable (Int64.ofNat s.length)
    (position.getD (Int64.ofNat s.length)) = true ↔ _ := isRemovable_iff (by omega)
  rw [hborder, hposition] at hremovable
  generalize hp : position.elim (s.length : Int) Int64.toInt = p at hposition hremovable
  by_cases hin : 1 ≤ p ∧ p ≤ s.length + 1
  · rw [Sequence.remove_of_le hp hin.1 hin.2] at hnext ⊢
    refine (ends_removeAt hlinks (hremovable.mpr (Or.inr hin))).mono (fun _ ht => ht)
      (fun r t ht => ⟨?_, ht.2.heldBy ?_ hnext⟩) fun _ _ he => he.elim
    · rw [ht.1, hf.item _ (by omega), hposition]
    · rw [hborder, hposition]
      exact hf.removed hfits hin.1 hin.2
  · by_cases hzero : p = 0 ∧ s.length = 0
    · obtain ⟨rfl, hempty⟩ := hzero
      rw [Sequence.remove_zero hp hempty] at hnext ⊢
      refine (ends_removeAt hlinks (hremovable.mpr (Or.inl (by omega)))).mono (fun _ ht => ht)
        (fun r t ht => ⟨?_, ht.2.heldBy ?_ hnext⟩) fun _ _ he => he.elim
      · rw [ht.1, Int64.toInt_inj.mp (hposition.trans Int64.toInt_zero.symm), hf.zero]
      · rw [hborder, hposition, hempty]
        exact hf.removed_zero
    · have hrefused : Collection.isRemovable (Int64.ofNat s.length)
          (position.getD (Int64.ofNat s.length)) = false := by
        rw [← Bool.not_eq_true, hremovable]
        omega
      rw [Sequence.remove_outside hp hin hzero]
      unfold Collection.removeAt
      simp only [hrefused]
      exact fun t ht => ⟨rfl, ht.heldBy hf hfits⟩

theorem refines (hlinks : m.limits.maxMetaChain ≠ 0) (hfits : s.Fits) (e : Edit)
    (hnext : (s.edit e).2.Fits) : Refines call id m s e := by
  cases e with
  | insert position v => exact refines_insert hlinks hfits position v hnext
  | remove position => exact refines_remove hlinks hfits position hnext

end

/-! ## runs -/

/-- no sequence of a run is too long for its positions -/
def Sequence.AllFit (edits : List Edit) (s : Sequence) : Prop :=
  s.Fits ∧ ∀ x ∈ trace Sequence.edit edits s, x.2.Fits

theorem Sequence.length_edit_le (e : Edit) (s : Sequence) : (s.edit e).2.length ≤ s.length + 1 := by
  cases e with
  | insert position v =>
    show (s.insert position v).2.items.length ≤ s.items.length + 1
    unfold Sequence.insert
    split
    · exact Nat.le_of_eq List.length_append
    · split
      · exact List.length_insertIdx_le_succ
      · exact Nat.le_succ _
  | remove position =>
    show (s.remove position).2.items.length ≤ s.items.length + 1
    unfold Sequence.remove
    dsimp only
    split
    · exact Nat.le_succ_of_le (List.length_eraseIdx_le _ _)
    · split
      · exact Nat.le_succ _
      · split <;> exact Nat.le_succ _

theorem Sequence.allFit (edits : List Edit) :
    ∀ s : Sequence, s.length + edits.length + 1 < 2 ^ 63 → s.AllFit edits := by
  induction edits with
  | nil => exact fun s hs => ⟨hs, fun _ hx => absurd hx List.not_mem_nil⟩
  | cons e edits ih =>
    intro s hs
    rw [List.length_cons] at hs
    have hgrown := s.length_edit_le e
    obtain ⟨hnext, hrest⟩ := ih (s.edit e).2 (by omega)
    have hfits : s.length + 1 < 2 ^ 63 := by omega
    refine ⟨hfits, fun x hx => ?_⟩
    rcases List.mem_cons.mp hx with rfl | hx
    · exact hnext
    · exact hrest x hx

/-- Insertion and removal on a plain table are insertion and deletion in the list that it holds, in
runs of any length: after each step the results or the error are the same, the table holds what the
list has become and has its length as border, and of the other keys only zero can have changed.
That positions have 64 bits is what `hborder` and `hfits` are about: the array has fewer slots than
there are positions, and no list is too long for its own. -/
theorem edits_refine (call : Caller) {id : TableId} {m : Machine} {s : Sequence}
    (hp : m.heap.Plain id) (hborder : (m.heap.table id).border < 2 ^ 63)
    (hlinks : m.limits.maxMetaChain ≠ 0)
    (hs : s.ReadBy (m.heap.table id).getKey (m.heap.table id).getKey) (edits : List Edit)
    (hfits : s.AllFit edits) :
    List.Forall₂ (fun x y => x.1 = y.1 ∧ x.2.HeldBy id m y.2) (trace Sequence.edit edits s)
      (trace (fun e => attempt (e.run (Machine.host call) (.table id))) edits m) := by
  refine trace_forall₂ (R := fun edits s t => s.HeldBy id m t ∧ s.AllFit edits)
    (fun e edits s t h => ?_) (fun _ _ _ h => h.1) edits s m ⟨?_, hfits⟩
  · obtain ⟨hheld, hfits, hnext⟩ := h
    have hstep : (s.edit e).2.Fits := hnext _ List.mem_cons_self
    have hrefines : Refines call id m s e := refines hlinks hfits e hstep
    have hedit := hrefines.attempt hheld
    exact ⟨hedit.1, hedit.2, hstep, fun x hx => hnext x (List.mem_cons_of_mem _ hx)⟩
  · have hstart : Filled id m (m.heap.table id).getKey m := ⟨OnlyTable.refl hp hborder, fun _ => rfl⟩
    exact hstart.heldBy hs hfits.1

/-! ## a list of two -/

theorem Sequence.readBy_ofList (xs : List Element) :
    (⟨xs, .nil⟩ : Sequence).ReadBy (Table.ofList (xs.map Subtype.val)).getKey
      (Table.ofList (xs.map Subtype.val)).getKey := by
  refine ⟨fun k hk => ?_, ?_, fun _ _ => rfl⟩
  · rw [Table.getKey_integer, Table.getInteger_ofList, if_pos hk, List.getElem?_map]
    show _ = (xs[k.toInt.toNat - 1]?).elim .nil Subtype.val
    cases xs[k.toInt.toNat - 1]? <;> rfl
  · rw [Table.getKey_integer, Table.getInteger_ofList]
    rfl

def pair : List Element := [⟨.integer 5, nofun⟩, ⟨.integer 7, nofun⟩]

def paired : Machine where
  heap := ({} : Heap).pushTable (.ofList (pair.map Subtype.val))
  globals := ⟨0⟩
  limits := {}

/-- an insertion in front, one out of bounds, and removals until nothing is left and beyond -/
def pairEdits : List Edit :=
  [.insert (some 1) ⟨.boolean true, nofun⟩, .insert (some 7) ⟨.boolean true, nofun⟩, .remove none,
    .remove (some 3), .remove (some 1), .remove none, .remove none, .remove (some 0)]

theorem edits_refine_paired :
    paired.heap.Plain ⟨0⟩ ∧ (paired.heap.table ⟨0⟩).border < 2 ^ 63 ∧
    paired.limits.maxMetaChain ≠ 0 ∧
    List.Forall₂ (fun x y => x.1 = y.1 ∧ x.2.HeldBy ⟨0⟩ paired y.2)
      (trace Sequence.edit pairEdits ⟨pair, .nil⟩)
      (trace (fun e => attempt (e.run (Machine.host EvalM.call) (.table ⟨0⟩))) pairEdits paired) :=
  have hp : paired.heap.Plain ⟨0⟩ := ⟨Table.WellFormed.ofList _, rfl, rfl⟩
  have hborder : (paired.heap.table ⟨0⟩).border < 2 ^ 63 := by decide
  have hlinks : paired.limits.maxMetaChain ≠ 0 := by decide
  ⟨hp, hborder, hlinks, edits_refine EvalM.call hp hborder hlinks (Sequence.readBy_ofList pair)
    pairEdits (Sequence.allFit pairEdits ⟨pair, .nil⟩ (by decide))⟩

end ScriptTables
