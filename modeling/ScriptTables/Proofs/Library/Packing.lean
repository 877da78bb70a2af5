import Mathlib.Data.List.DropRight
import ScriptTables.Library.Namespace
import ScriptTables.Proofs.Library.Shifting
import ScriptTables.Proofs.Library.Unpacking

/-!
# Unpacking what was packed

The array of a packed table ends with the last value that is not `nil`, so the border forgets the
`nil`s behind it.  The count, which is kept under a name beside the array, does not: a range up to the
count has them all, since what is read behind the border is `nil` again.

* `Table.elements_ofList`   the array of a new table;
* `Table.between_ofList`    the range of its first elements;
* `unpack_table`            what unpacking comes to for a table without a hook for reading;
* `pack_undone`             both ranges of a packed table.
-/

namespace ScriptTables

/-! ## new tables -/

theorem toList_popNils {n : Nat} {a : Array Value} (h : a.size ≤ n) :
    (popNils n a).toList = a.toList.rdropWhile Value.isNil := by
  induction n generalizing a with
  | zero =>
    rw [Array.eq_empty_of_size_eq_zero (Nat.le_zero.mp h)]
    rfl
  | succ n ih =>
    by_cases hempty : a = #[]
    · rw [hempty]
      rfl
    · obtain ⟨front, v, rfl⟩ := Array.exists_push_of_ne_empty hempty
      rw [Array.size_push] at h
      rw [popNils_succ, Array.back?_push, Array.pop_push, Array.toList_push]
      by_cases hv : v = .nil
      · rw [if_pos (congrArg some hv), List.rdropWhile_concat_pos _ _ _ (Value.isNil_iff.mpr hv)]
        exact ih (by omega)
      · rw [if_neg (mt Option.some.inj hv), Array.toList_push,
          List.rdropWhile_concat_neg _ _ _ (mt Value.isNil_iff.mp hv)]

namespace Table

/-- the array of a new table ends where the `nil`s at the end of the values begin -/
theorem elements_ofList (vs : List Value) : (ofList vs).elements = vs.rdropWhile Value.isNil :=
  toList_popNils (Nat.le_refl _)

theorem border_ofList (vs : List Value) :
    (ofList vs).border = (vs.rdropWhile Value.isNil).length := by
  rw [← elements_ofList]
  rfl

theorem between_ofList {vs : List Value} {n : Int64} {k : Nat} (hn : n.toInt = k)
    (hk : k ≤ vs.length) : (ofList vs).between 1 n = vs.take k := by
  have hlast := n.toInt_lt
  have hcount : (rangeCount 1 n).toNat = k := by
    show (n.toInt - 1 + 1).toNat = k
    omega
  rw [between, keysBetween, hcount, positions, List.map_map, List.map_map]
  refine List.ext_getElem ?_ fun j hj hj' => ?_
  · rw [List.length_map, List.length_range, List.length_take, Nat.min_eq_left hk]
  · rw [List.length_map, List.length_range] at hj
    have hkey : (Int64.ofInt (1 + (j : Int))).toInt = 1 + j :=
      Int64.toInt_ofInt_of_le (by omega) (by omega)
    rw [List.getElem_map, List.getElem_range, List.getElem_take]
    show (ofList vs).getInteger (Int64.ofInt (1 + (j : Int))) = _
    rw [getInteger_ofList, if_pos (by omega), hkey, show (1 + (j : Int)).toNat - 1 = j by omega,
      List.getElem?_eq_getElem (by omega)]
    rfl

end Table

/-! ## packed tables -/

section
variable (values : List Value)

theorem packed_eq : packed values
    = (Table.ofList values).setKey (.string countField) (.integer (Int64.ofNat values.length)) := rfl

theorem metatable_packed : (packed values).metatable = none := by
  rw [packed_eq, Table.metatable_setKey]
  rfl

theorem getString_packed :
    (packed values).getString countField = .integer (Int64.ofNat values.length) := by
  rw [packed_eq, ← Table.getKey_string, Table.getKey_setKey (Table.WellFormed.ofList values),
    if_pos rfl]

/-- the count is beside the elements, not among them -/
theorem getInteger_packed (n : Int64) :
    (packed values).getInteger n = (Table.ofList values).getInteger n := by
  rw [packed_eq, ← Table.getKey_integer, Table.getKey_setKey (Table.WellFormed.ofList values),
    if_neg nofun]
  rfl

theorem border_packed : (packed values).border = (values.rdropWhile Value.isNil).length :=
  Table.border_ofList values

theorem between_packed {n : Int64} {k : Nat} (hn : n.toInt = k) (hk : k ≤ values.length) :
    (packed values).between 1 n = values.take k := by
  rw [← Table.between_ofList hn hk]
  exact List.map_congr_left fun key _ => getInteger_packed values key

end

/-! ## unpacking a table -/

theorem unpack_table (call : Caller) {t : Machine} {id : TableId}
    (hreading : t.heap.metamethod (.table id) indexHook = .nil)
    (hlinks : t.limits.maxMetaChain ≠ 0) {first last : Option Int64} {lo hi : Int64}
    (hlo : first.getD 1 = lo) (hhi : last.getD (Int64.ofNat (t.heap.table id).border) = hi) :
    ((Machine.host call).unpack (.table id) first last).run t =
      if 1 ≤ rangeCount lo hi ∧ rangeCount lo hi ≤ min maxResults t.limits.maxStack then
        .ok ((t.heap.table id).between lo hi) t
      else .error ⟨.tooManyResults, []⟩ t := by
  have hentry : ((Machine.host call).unpackEntry (.table id) last).run t
      = .ok (.native id, hi) t := by
    cases last <;> subst hhi <;> rfl
  rw [Host.unpack_eq, hlo, run_bind, unpackStart_run call hentry lo]
  by_cases hcount : 1 ≤ rangeCount lo hi ∧ rangeCount lo hi ≤ min maxResults t.limits.maxStack
  · rw [if_pos hcount, if_pos hcount, Table.between, keysBetween, List.map_map]
    exact gather_run_of_ok fun k _ _ => get_table call hreading hlinks k
  · rw [if_neg hcount, if_neg hcount]

theorem unpack_packed (call : Caller) {t : Machine} {id : TableId} {values : List Value}
    (htable : t.heap.table id = packed values) (hlinks : t.limits.maxMetaChain ≠ 0)
    (hfew : values.length ≤ min maxResults t.limits.maxStack) {first last : Option Int64} {n : Int64}
    {k : Nat} (hn : n.toInt = k) (hk : k ≤ values.length) (hlo : first.getD 1 = 1)
    (hhi : last.getD (Int64.ofNat (packed values).border) = n) :
    ((Machine.host call).unpack (.table id) first last).run t =
      if 1 ≤ k then .ok (values.take k) t else .error ⟨.tooManyResults, []⟩ t := by
  have hreading : t.heap.metamethod (.table id) indexHook = .nil := by
    refine Heap.metamethod_of_none ?_ indexHook
    show (t.heap.table id).metatable = none
    rw [htable, metatable_packed]
  have hcount : rangeCount 1 n = k := by
    show n.toInt - 1 + 1 = k
    omega
  rw [← htable] at hhi
  rw [unpack_table call hreading hlinks hlo hhi, hcount, htable, between_packed values hn hk]
  by_cases hpos : 1 ≤ k
  · rw [if_pos hpos, if_pos (by omega)]
  · rw [if_neg hpos, if_neg (by omega)]

/-- **Unpacking undoes packing.**  The range from one to the count of a packed table has all values
that were packed, `nil`s included.  The range up to its border has them up to the last one that is not
`nil`, and is refused where there is none.  The same is so for the functions of the library. -/
theorem pack_undone (call : Caller) {m : Machine} (hlinks : m.limits.maxMetaChain ≠ 0)
    {values : List Value} (hsome : 1 ≤ values.length)
    (hfew : values.length ≤ min maxResults m.limits.maxStack) :
    ∃ (id : TableId) (t : Machine) (n : Int64),
      ((Machine.host call).pack values).run m = .ok id t ∧
      (t.heap.table id).getString countField = .integer n ∧ n.toInt = values.length ∧
      ((Machine.host call).unpack (.table id) (some 1) (some n)).run t = .ok values t ∧
      ((∃ v ∈ values, v ≠ .nil) → ((Machine.host call).unpack (.table id) none none).run t
        = .ok (values.rdropWhile Value.isNil) t) ∧
      ((∀ v ∈ values, v = .nil) → ((Machine.host call).unpack (.table id) none none).run t
        = .error ⟨.tooManyResults, []⟩ t) ∧
      ((Machine.host call).library .pack values).run m = .ok [.table id] t ∧
      ((Machine.host call).library .unpack [.table id, .integer 1, .integer n]).run t
        = .ok values t ∧
      (Machine.host call).library .unpack [.table id]
        = (Machine.host call).unpack (.table id) none none := by
  let t : Machine := { m with heap := m.heap.pushTable (packed values) }
  have htable : t.heap.table m.heap.nextTable = packed values := by
    show (m.heap.pushTable (packed values)).table m.heap.nextTable = _
    rw [Heap.table_pushTable, if_pos rfl]
  have hmax : maxResults = 1000000 := rfl
  have hcount : ∀ k, k ≤ values.length → (Int64.ofNat k).toInt = k :=
    fun k hk => toInt_position (by omega)
  have hwhole : ((Machine.host call).unpack (.table m.heap.nextTable) (some 1)
      (some (Int64.ofNat values.length))).run t = .ok values t := by
    rw [unpack_packed call htable hlinks hfew (hcount _ (Nat.le_refl _)) (Nat.le_refl _) rfl rfl,
      if_pos hsome, List.take_length]
  have hprefix : values.rdropWhile Value.isNil <+: values := List.rdropWhile_prefix _ _
  have hfront : ((Machine.host call).unpack (.table m.heap.nextTable) none none).run t =
      if 1 ≤ (values.rdropWhile Value.isNil).length then .ok (values.rdropWhile Value.isNil) t
      else .error ⟨.tooManyResults, []⟩ t := by
    rw [unpack_packed call htable hlinks hfew (hcount _ hprefix.length_le) hprefix.length_le rfl
      (by rw [border_packed]; rfl), ← List.prefix_iff_eq_take.mp hprefix]
  refine ⟨m.heap.nextTable, t, Int64.ofNat values.length, rfl, ?_, hcount _ (Nat.le_refl _), hwhole,
    fun hheld => ?_, fun hnil => ?_, rfl, hwhole, rfl⟩
  · rw [htable, getString_packed]
  · obtain ⟨v, hv, hne⟩ := hheld
    have hkept : values.rdropWhile Value.isNil ≠ [] := fun hempty =>
      hne (Value.isNil_iff.mp (List.rdropWhile_eq_nil_iff.mp hempty v hv))
    rw [hfront, if_pos (Nat.succ_le_of_lt (List.length_pos_iff.mpr hkept))]
  · have hempty : values.rdropWhile Value.isNil = [] :=
      List.rdropWhile_eq_nil_iff.mpr fun v hv => Value.isNil_iff.mpr (hnil v hv)
    rw [hfront, hempty]
    rfl

/-- `nil`s between the values and behind them, and nothing but `nil`s -/
theorem pack_undone_gapped :
    (∃ (id : TableId) (t : Machine) (n : Int64),
      ((Machine.host EvalM.call).pack [.integer 1, .nil, .string "x", .nil, .nil]).run
        (Machine.start {}) = .ok id t ∧ n.toInt = 5 ∧
      ((Machine.host EvalM.call).unpack (.table id) (some 1) (some n)).run t
        = .ok [.integer 1, .nil, .string "x", .nil, .nil] t ∧
      ((Machine.host EvalM.call).unpack (.table id) none none).run t
        = .ok [.integer 1, .nil, .string "x"] t) ∧
    ∃ (id : TableId) (t : Machine),
      ((Machine.host EvalM.call).pack [.nil, .nil]).run (Machine.start {}) = .ok id t ∧
      ((Machine.host EvalM.call).unpack (.table id) none none).run t
        = .error ⟨.tooManyResults, []⟩ t := by
  have hlinks : (Machine.start {}).limits.maxMetaChain ≠ 0 := by decide
  have hfive : 1 ≤ ([.integer 1, .nil, .string "x", .nil, .nil] : List Value).length := by decide
  have htwo : 1 ≤ ([.nil, .nil] : List Value).length := by decide
  constructor
  · obtain ⟨id, t, n, hpack, -, hn, hwhole, hkept, -⟩ :=
      pack_undone EvalM.call hlinks hfive (by decide)
    exact ⟨id, t, n, hpack, hn, hwhole, hkept ⟨.integer 1, by decide, by decide⟩⟩
  · obtain ⟨id, t, _, hpack, -, -, -, -, hnone, -⟩ :=
      pack_undone EvalM.call hlinks htwo (by decide)
    exact ⟨id, t, hpack, hnone (by decide)⟩

end ScriptTables
