import ScriptTables.Machine.Call
import ScriptTables.Proofs.Library.Gathering
import ScriptTables.Proofs.Library.Shifting

/-!
# Joining the texts of a range

The texts of a range stand in the result one behind the other, with the separator between neighbours
and nowhere else.  The first element that has no text ends the call.

* `Value.HasText`, `Value.text`   strings and numbers, and their texts;
* `Collection.joinOnto`           one pass over the range, in which a separator depends on the key;
* `Collection.join_eq`            joining is such a pass, whatever the host;
* `concat_joins`                  what joining a table comes to.
-/

namespace ScriptTables

/-! ## elements with a text -/

/-- only strings and numbers have a text -/
def Value.HasText (v : Value) : Prop := v.typeName = .string ∨ v.typeName = .number

instance : DecidablePred Value.HasText := fun v =>
  inferInstanceAs (Decidable (v.typeName = .string ∨ v.typeName = .number))

theorem Value.isSome_toText?_iff {v : Value} : v.toText?.isSome ↔ v.HasText := by
  cases v <;> simp [Value.toText?, Value.HasText, Value.typeName]

def Value.text (v : Value) : String := v.toText?.getD ""

theorem Value.toText?_eq_some {v : Value} (h : v.HasText) : v.toText? = some v.text := by
  obtain ⟨text, htext⟩ := Option.isSome_iff_exists.mp (isSome_toText?_iff.mpr h)
  rw [Value.text, htext]
  rfl

theorem Value.toText?_eq_none {v : Value} (h : ¬v.HasText) : v.toText? = none :=
  Option.not_isSome_iff_eq_none.mp (mt isSome_toText?_iff.mp h)

/-! ## one pass -/

namespace Collection

section
variable {σ : Type} (host : Host σ) (c : Collection) (separator : String) (first : Int64)

/-- Join elements to what is there already.  The separator stands in front of every element but the
first, which is known by its key: what is there already may be empty later on too. -/
def joinOnto : Nat → Int64 → String → Action σ String
  | 0, _, joined => pure joined
  | n + 1, k, joined => do
    let text ← c.textAt host k.toInt
    joinOnto n (k + 1) ((if k = first then joined else joined ++ separator) ++ text)

/-- behind the first key all that is there already counts as one text -/
theorem joinOnto_eq (n : Nat) : ∀ (i : Int) (joined : String), first.toInt < i → i + n ≤ 2 ^ 63 →
    c.joinOnto host separator first n (Int64.ofInt i) joined = (do
      let texts ← gather (c.textAt host) n i
      pure (separator.intercalate (joined :: texts))) := by
  induction n with
  | zero =>
    intro i joined _ _
    rw [gather_zero, pure_bind, String.intercalate_singleton]
    rfl
  | succ n ih =>
    intro i joined hfirst hlast
    have hlow := first.le_toInt
    have hi : (Int64.ofInt i).toInt = i := Int64.toInt_ofInt_of_le (by omega) (by omega)
    have hne : Int64.ofInt i ≠ first := fun h => by
      rw [h] at hi
      omega
    have hnext : Int64.ofInt i + 1 = Int64.ofInt (i + 1) := (Int64.ofInt_add i 1).symm
    rw [joinOnto, hi, if_neg hne, hnext, gather_succ, bind_assoc]
    refine bind_congr fun text => ?_
    rw [ih (i + 1) _ (by omega) (by omega), bind_assoc]
    refine bind_congr fun texts => ?_
    rw [pure_bind, String.intercalate_cons_cons, String.intercalate_cons_append]

theorem join_eq (border : Int64) (first last : Option Int64) :
    c.join host border separator first last
      = c.joinOnto host separator (first.getD 1)
          (rangeCount (first.getD 1) (last.getD border)).toNat (first.getD 1) "" := by
  generalize hlo : first.getD 1 = lo
  generalize hhi : last.getD border = hi
  rw [join, hlo, hhi]
  have hcount : rangeCount lo hi = hi.toInt - lo.toInt + 1 := rfl
  have hhigh := hi.toInt_lt
  cases hn : (rangeCount lo hi).toNat with
  | zero =>
    rw [gather_zero, pure_bind]
    rfl
  | succ n =>
    have hnext : lo + 1 = Int64.ofInt (lo.toInt + 1) := by
      rw [Int64.ofInt_add, Int64.ofInt_toInt]
      rfl
    rw [gather_succ, joinOnto, if_pos rfl, bind_assoc]
    refine bind_congr fun text => ?_
    rw [hnext, joinOnto_eq host c separator lo n _ _ (by omega) (by omega), bind_assoc,
      String.empty_append]
    exact bind_congr fun texts => pure_bind _ _

end

end Collection

/-! ## the elements of a table -/

section
variable (call : Caller) {m : Machine} {id : TableId}

theorem textAt_table (hreading : m.heap.metamethod (.table id) indexHook = .nil)
    (hlinks : m.limits.maxMetaChain ≠ 0) (i : Int) :
    ((Collection.native id).textAt (Machine.host call) i).run m =
      match ((m.heap.table id).getInteger (Int64.ofInt i)).toText? with
      | some text => .ok text m
      | none =>
        .error ⟨.cannotJoin ((m.heap.table id).getInteger (Int64.ofInt i)).typeName i, []⟩ m := by
  rw [Collection.textAt, run_bind_of_ok (get_table call hreading hlinks i)]
  cases ((m.heap.table id).getInteger (Int64.ofInt i)).toText? <;> rfl

variable (hreading : m.heap.metamethod (.table id) indexHook = .nil)
  (hlinks : m.limits.maxMetaChain ≠ 0) (separator : String) {first last : Option Int64}
  {lo hi : Int64} (hlo : first.getD 1 = lo)
  (hhi : last.getD (Int64.ofNat (m.heap.table id).border) = hi)
include hreading hlinks hlo hhi

theorem concat_of_texts
    (htexts : ∀ k, lo ≤ k → k ≤ hi → ((m.heap.table id).getInteger k).HasText) :
    ∃ texts, ((m.heap.table id).between lo hi).map Value.toText? = texts.map some ∧
      ((Machine.host call).concat (.table id) separator first last).run m
        = .ok (separator.intercalate texts) m := by
  refine ⟨((m.heap.table id).between lo hi).map Value.text, ?_, ?_⟩
  · rw [Table.between, List.map_map, List.map_map, List.map_map]
    refine List.map_congr_left fun k hk => ?_
    obtain ⟨hlow, hhigh⟩ := mem_keysBetween.mp hk
    exact Value.toText?_eq_some (htexts k hlow hhigh)
  · have hgather : (gather ((Collection.native id).textAt (Machine.host call))
        (rangeCount lo hi).toNat lo.toInt).run m
          = .ok (((m.heap.table id).between lo hi).map Value.text) m := by
      rw [Table.between, keysBetween, List.map_map, List.map_map]
      refine gather_run_of_ok fun i hlow hhigh => ?_
      obtain ⟨hi, hlast⟩ := toInt_between hlow hhigh
      rw [textAt_table call hreading hlinks, Value.toText?_eq_some (htexts _
        (by rwa [Int64.le_iff_toInt_le, hi]) (by rwa [Int64.le_iff_toInt_le, hi]))]
      rfl
    rw [Host.concat, run_bind, collectionWithBorder_table]
    show ((Collection.native id).join _ _ _ _ _).run m = _
    rw [Collection.join, hlo, hhi, run_bind_of_ok hgather]
    rfl

theorem concat_of_least {k : Int64} (hlow : lo ≤ k) (hhigh : k ≤ hi)
    (hnone : ¬((m.heap.table id).getInteger k).HasText)
    (hbefore : ∀ j, lo ≤ j → j < k → ((m.heap.table id).getInteger j).HasText) :
    ((Machine.host call).concat (.table id) separator first last).run m
      = .error ⟨.cannotJoin ((m.heap.table id).getInteger k).typeName k.toInt, []⟩ m := by
  have hcount : rangeCount lo hi = hi.toInt - lo.toInt + 1 := rfl
  rw [Int64.le_iff_toInt_le] at hlow hhigh
  have hgather : (gather ((Collection.native id).textAt (Machine.host call))
      (rangeCount lo hi).toNat lo.toInt).run m
        = .error ⟨.cannotJoin ((m.heap.table id).getInteger k).typeName k.toInt, []⟩ m := by
    refine gather_run_of_error (fun j hj hjk => ?_) hlow (by omega) ?_
    · have hk := k.toInt_lt
      have hlo := lo.le_toInt
      have hint : (Int64.ofInt j).toInt = j := Int64.toInt_ofInt_of_le (by omega) (by omega)
      have htext := hbefore (Int64.ofInt j) (by rwa [Int64.le_iff_toInt_le, hint])
        (by rwa [Int64.lt_iff_toInt_lt, hint])
      exact ⟨_, by rw [textAt_table call hreading hlinks, Value.toText?_eq_some htext]⟩
    · rw [textAt_table call hreading hlinks, Int64.ofInt_toInt, Value.toText?_eq_none hnone]
  rw [Host.concat, run_bind, collectionWithBorder_table]
  show ((Collection.native id).join _ _ _ _ _).run m = _
  rw [Collection.join, hlo, hhi, run_bind, hgather]

theorem concat_of_not_texts
    (hsome : ¬∀ k, lo ≤ k → k ≤ hi → ((m.heap.table id).getInteger k).HasText) :
    ∃ k, lo ≤ k ∧ k ≤ hi ∧ ¬((m.heap.table id).getInteger k).HasText ∧
      (∀ j, lo ≤ j → j < k → ((m.heap.table id).getInteger j).HasText) ∧
      ((Machine.host call).concat (.table id) separator first last).run m
        = .error ⟨.cannotJoin ((m.heap.table id).getInteger k).typeName k.toInt, []⟩ m := by
  simp only [not_forall] at hsome
  obtain ⟨k, hlow, hhigh, hnone⟩ := hsome
  obtain ⟨k, hlow, hhigh, hnone, hleast⟩ := exists_least_key
    (P := fun k => ¬((m.heap.table id).getInteger k).HasText) ⟨k, hlow, hhigh, hnone⟩
  have hbefore : ∀ j, lo ≤ j → j < k → ((m.heap.table id).getInteger j).HasText :=
    fun j hj hjk => not_not.mp (hleast j hj hjk)
  exact ⟨k, hlow, hhigh, hnone, hbefore,
    concat_of_least call hreading hlinks separator hlo hhi hlow hhigh hnone hbefore⟩

theorem concat_cut {mid : Int64} {joined : String} (hmid : lo ≤ mid) (hlast : mid < hi)
    (hrun : ((Machine.host call).concat (.table id) separator first last).run m = .ok joined m) :
    ∃ front back,
      ((Machine.host call).concat (.table id) separator (some lo) (some mid)).run m
        = .ok front m ∧
      ((Machine.host call).concat (.table id) separator (some (mid + 1)) (some hi)).run m
        = .ok back m ∧
      joined = front ++ separator ++ back := by
  have hall : ∀ k, lo ≤ k → k ≤ hi → ((m.heap.table id).getInteger k).HasText := by
    by_contra hsome
    obtain ⟨k, _, _, _, _, herror⟩ :=
      concat_of_not_texts call hreading hlinks separator hlo hhi hsome
    rw [hrun] at herror
    cases herror
  obtain ⟨texts, htexts, hjoined⟩ :=
    concat_of_texts call hreading hlinks separator hlo hhi hall
  have hgiven : ∀ a b, (∀ k, a ≤ k → k ≤ b → ((m.heap.table id).getInteger k).HasText) →
      ∃ parts, ((m.heap.table id).between a b).map Value.toText? = parts.map some ∧
        ((Machine.host call).concat (.table id) separator (some a) (some b)).run m
          = .ok (separator.intercalate parts) m :=
    fun a b => concat_of_texts call hreading hlinks separator rfl rfl
  obtain ⟨front, hfront, hfrontRun⟩ := hgiven lo mid fun k hlow hhigh =>
    hall k hlow (Int64.le_trans hhigh (Int64.le_of_lt hlast))
  obtain ⟨back, hback, hbackRun⟩ := hgiven (mid + 1) hi fun k hlow hhigh =>
    hall k (Int64.le_trans hmid (Int64.le_trans (le_next hlast) hlow)) hhigh
  -- the texts of the two parts are those of the whole
  have hparts : texts = front ++ back := by
    rw [Table.between_split _ hmid hlast, List.map_append, hfront, hback, ← List.map_append] at htexts
    exact (List.map_injective_iff.mpr (Option.some_injective String) htexts).symm
  have hne : ∀ {a b : Int64} {parts : List String}, a ≤ b →
      ((m.heap.table id).between a b).map Value.toText? = parts.map some → parts ≠ [] := by
    rintro a b parts hab hmap rfl
    exact Table.between_ne_nil _ hab (List.map_eq_nil_iff.mp hmap)
  rw [hrun] at hjoined
  refine ⟨_, _, hfrontRun, hbackRun, ?_⟩
  rw [← String.intercalate_append_of_ne_nil (hne hmid hfront) (hne (next_le hlast) hback), ← hparts]
  injection hjoined

end

/-- **Joining a table without metatable.**  Where all elements of the range are strings and numbers
their texts are joined with the separator, and nothing stands in the result of an empty range.
Otherwise the least key whose element is neither is reported.  Nothing changes either way.  So a
range that is joined may be cut in two anywhere; and on any host a join is one pass over the keys. -/
theorem concat_joins (call : Caller) {m : Machine} {id : TableId}
    (hbare : (m.heap.table id).metatable = none) (hlinks : m.limits.maxMetaChain ≠ 0)
    (separator : String) {first last : Option Int64} {lo hi : Int64} (hlo : first.getD 1 = lo)
    (hhi : last.getD (Int64.ofNat (m.heap.table id).border) = hi) :
    ((∀ k, lo ≤ k → k ≤ hi → ((m.heap.table id).getInteger k).HasText) →
      ∃ texts, ((m.heap.table id).between lo hi).map Value.toText? = texts.map some ∧
        ((Machine.host call).concat (.table id) separator first last).run m
          = .ok (separator.intercalate texts) m) ∧
    (hi < lo → ((Machine.host call).concat (.table id) separator first last).run m = .ok "" m) ∧
    ((¬∀ k, lo ≤ k → k ≤ hi → ((m.heap.table id).getInteger k).HasText) →
      ∃ k, lo ≤ k ∧ k ≤ hi ∧ ¬((m.heap.table id).getInteger k).HasText ∧
        (∀ j, lo ≤ j → j < k → ((m.heap.table id).getInteger j).HasText) ∧
        ((Machine.host call).concat (.table id) separator first last).run m
          = .error ⟨.cannotJoin ((m.heap.table id).getInteger k).typeName k.toInt, []⟩ m) ∧
    (∀ mid joined, lo ≤ mid → mid < hi →
      ((Machine.host call).concat (.table id) separator first last).run m = .ok joined m →
      ∃ front back,
        ((Machine.host call).concat (.table id) separator (some lo) (some mid)).run m
          = .ok front m ∧
        ((Machine.host call).concat (.table id) separator (some (mid + 1)) (some hi)).run m
          = .ok back m ∧
        joined = front ++ separator ++ back) ∧
    (∀ {σ : Type} (host : Host σ) (c : Collection) (border : Int64),
      c.join host border separator first last
        = c.joinOnto host separator (first.getD 1)
            (rangeCount (first.getD 1) (last.getD border)).toNat (first.getD 1) "") ∧
    ∀ (type : TypeName) (index : Int), (Fault.cannotJoin type index).kind = .type ∧
      (Fault.cannotJoin type index).message = "invalid value (" ++ type.text ++ ") at index " ++
        index.repr ++ " in table for 'concat'" := by
  have hreading : m.heap.metamethod (.table id) indexHook = .nil :=
    Heap.metamethod_of_none (v := .table id) hbare indexHook
  refine ⟨concat_of_texts call hreading hlinks separator hlo hhi, fun hempty => ?_,
    concat_of_not_texts call hreading hlinks separator hlo hhi,
    fun mid joined hmid hlast => concat_cut call hreading hlinks separator hlo hhi hmid hlast,
    fun host c border => c.join_eq host separator border _ _, fun _ _ => ⟨rfl, rfl⟩⟩
  obtain ⟨texts, htexts, hrun⟩ := concat_of_texts call hreading hlinks separator hlo hhi
    fun k hlow hhigh => absurd (Int64.lt_of_le_of_lt hhigh hempty) (Int64.not_lt.mpr hlow)
  rw [Table.between, keysBetween_of_lt hempty] at htexts
  rw [hrun, List.map_eq_nil_iff.mp htexts.symm, String.intercalate_nil]

/-- three elements with texts, of which one is empty, and one without -/
def worded : Machine where
  heap := ({} : Heap).pushTable (.ofList [.string "a", .integer 2, .string "", .boolean true])
  globals := ⟨0⟩
  limits := {}

theorem concat_joins_worded :
    (worded.heap.table ⟨0⟩).metatable = none ∧ worded.limits.maxMetaChain ≠ 0 ∧
      ((Machine.host EvalM.call).concat (.table ⟨0⟩) "-" none (some 3)).run worded
        = .ok "a-2-" worded ∧
      ((Machine.host EvalM.call).concat (.table ⟨0⟩) "-" none none).run worded
        = .error ⟨.cannotJoin .boolean 4, []⟩ worded := by
  have hlinks : worded.limits.maxMetaChain ≠ 0 := by decide
  refine ⟨rfl, hlinks, ?_, ?_⟩
  · have htexts : ((keysBetween 1 3).all fun k =>
        decide ((worded.heap.table ⟨0⟩).getInteger k).HasText) = true := by decide
    obtain ⟨texts, hmap, hrun⟩ := (concat_joins EvalM.call (m := worded) rfl hlinks "-"
      (rfl : none.getD 1 = (1 : Int64)) (rfl : (some 3).getD _ = (3 : Int64))).1
      fun k hlow hhigh => of_decide_eq_true
        (List.all_eq_true.mp htexts k (mem_keysBetween.mpr ⟨hlow, hhigh⟩))
    have hknown : ((worded.heap.table ⟨0⟩).between 1 3).map Value.toText?
        = ["a", "2", ""].map some := by decide
    rw [hrun, List.map_injective_iff.mpr (Option.some_injective String) (hmap.symm.trans hknown)]
    rfl
  · have hfourth : ((keysBetween 1 4).all fun k =>
        decide (((worded.heap.table ⟨0⟩).getInteger k).HasText ∨ k = 4)) = true := by decide
    have hborder : (none : Option Int64).getD (Int64.ofNat (worded.heap.table ⟨0⟩).border) = 4 := by
      decide
    obtain ⟨k, hlow, hhigh, hnone, -, hrun⟩ := (concat_joins EvalM.call (m := worded) rfl hlinks "-"
      (rfl : none.getD 1 = (1 : Int64)) hborder).2.2.1
      fun hall => absurd (hall 4 (by decide) (by decide)) (by decide)
    have hk := of_decide_eq_true
      (List.all_eq_true.mp hfourth k (mem_keysBetween.mpr ⟨hlow, hhigh⟩))
    obtain rfl := hk.resolve_left hnone
    exact hrun

end ScriptTables
