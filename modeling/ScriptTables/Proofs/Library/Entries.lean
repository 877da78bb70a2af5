import ScriptTables.Proofs.Script.Termination

/-!
# Two entries to each operation

Each operation of the library can be called with options, and as a function with positional arguments.
The two take their arguments apart in different orders and check them in places of their own.  Where
the arguments can be decoded at all this makes no difference: the function is the operation on what
they decode to.  That is an equation of actions on every host, so the two also ask the host the
same questions in the same order.

The namespace that the machine opens offers the functions as values.  A call of such a value is the
operation too, with one more call running.

* `TypedCall`                   an operation with its options; `TypedCall.run`;
* `LibraryFunction.decode?`     what positional arguments decode to;
* `library_eq_run`              a function is the operation on what its arguments decode to;
* `Machine.HasCode`             a function with its code, which nothing takes away;
* `ends_openLibrary`            the namespace offers every function under its name;
* `entries_agree`               all of it.
-/

namespace ScriptTables

/-! ## typed calls -/

/-- an operation with its options -/
inductive TypedCall where
  | concat (list : Value) (separator : String) (first last : Option Int64)
  | insert (list : Value) (position : Option Int64) (v : Value)
  | move (source : Value) (range : MoveRange) (target : Option Value)
  | pack (values : List Value)
  | remove (list : Value) (position : Option Int64)
  | sort (list comparator : Value)
  | unpack (list : Value) (first last : Option Int64)

/-- an operation, its result as a list: an optional one as at most one value -/
def TypedCall.run {σ : Type} (host : Host σ) : TypedCall → Action σ (List Value)
  | .concat list separator first last => do
    let joined ← host.concat list separator first last
    pure [.string joined]
  | .insert list position v => do
    host.insert list position v
    pure []
  | .move source range target => do
    let v ← host.move source range target
    pure [v]
  | .pack values => do
    let id ← host.pack values
    pure [.table id]
  | .remove list position => do
    let removed ← host.remove list position
    pure removed.toList
  | .sort list comparator => do
    host.sort list comparator
    pure []
  | .unpack list first last => host.unpack list first last

/-! ## decoding -/

/-- an argument that may be left out, if what is there can be decoded -/
def optional? {α : Type} (decode : Value → Option α) (args : List Value) (position : Nat) :
    Option (Option α) :=
  if isAbsent args position then some none
  else (decode (argumentOrNil args position)).map some

/-- What positional arguments decode to, if the required ones are there.  An insertion takes two or
three arguments; elsewhere those behind the last one that counts are ignored.  Only to unpack a list
may be missing, and it is `nil` then.  A comparator is looked at when the list has been checked. -/
def LibraryFunction.decode? (args : List Value) : LibraryFunction → Option TypedCall
  | .concat => do
    let list ← argument? args 1
    let separator ← optional? Value.toText? args 2
    let first ← optional? Value.toInteger? args 3
    let last ← optional? Value.toInteger? args 4
    pure (.concat list (separator.getD "") first last)
  | .insert =>
    match args with
    | [list, v] => some (.insert list none v)
    | [list, position, v] => do
      let position ← position.toInteger?
      pure (.insert list (some position) v)
    | _ => none
  | .move => do
    let source ← argument? args 1
    let first ← (argumentOrNil args 2).toInteger?
    let last ← (argumentOrNil args 3).toInteger?
    let destination ← (argumentOrNil args 4).toInteger?
    let target ← optional? some args 5
    pure (.move source ⟨first, last, destination⟩ target)
  | .pack => some (.pack args)
  | .remove => do
    let list ← argument? args 1
    let position ← optional? Value.toInteger? args 2
    pure (.remove list position)
  | .sort => do
    let list ← argument? args 1
    pure (.sort list (argumentOrNil args 2))
  | .unpack => do
    let first ← optional? Value.toInteger? args 2
    let last ← optional? Value.toInteger? args 3
    pure (.unpack (argumentOrNil args 1) first last)

section
variable {σ : Type} {args : List Value} {position : Nat}

theorem argument?_of_ne_nil (h : argumentOrNil args position ≠ .nil) :
    argument? args position = some (argumentOrNil args position) := by
  rw [argumentOrNil] at h ⊢
  cases hv : argument? args position with
  | none =>
    rw [hv] at h
    exact absurd rfl h
  | some v => rfl

theorem optional?_cases {α : Type} {decode : Value → Option α} {a : Option α}
    (h : optional? decode args position = some a) :
    (isAbsent args position = true ∧ a = none) ∨
      ∃ b, isAbsent args position = false ∧ decode (argumentOrNil args position) = some b ∧
        a = some b := by
  unfold optional? at h
  by_cases habsent : isAbsent args position = true
  · rw [if_pos habsent] at h
    exact Or.inl ⟨habsent, (Option.some.inj h).symm⟩
  · rw [if_neg habsent] at h
    obtain ⟨b, hb, hab⟩ := Option.map_eq_some_iff.mp h
    exact Or.inr ⟨b, Bool.eq_false_iff.mpr habsent, hb, hab.symm⟩

theorem checkInteger_of_decoded {n : Int64}
    (h : (argumentOrNil args position).toInteger? = some n) (function : String) :
    (checkInteger function args position : Action σ Int64) = pure n := by
  rw [checkInteger, h]

theorem optionalInteger_of_decoded {n : Option Int64}
    (h : optional? Value.toInteger? args position = some n) (function : String) :
    (optionalInteger function args position : Action σ (Option Int64)) = pure n := by
  unfold optionalInteger
  rcases optional?_cases h with ⟨habsent, rfl⟩ | ⟨i, hsupplied, hi, rfl⟩
  · rw [if_pos habsent]
  · rw [if_neg (Bool.eq_false_iff.mp hsupplied), checkInteger_of_decoded hi, pure_bind]

theorem optionalText_of_decoded {s : Option String}
    (h : optional? Value.toText? args position = some s) (function : String) :
    (optionalText function args position : Action σ (Option String)) = pure s := by
  unfold optionalText
  rcases optional?_cases h with ⟨habsent, rfl⟩ | ⟨text, hsupplied, htext, rfl⟩
  · rw [if_pos habsent]
  · rw [if_neg (Bool.eq_false_iff.mp hsupplied), htext]

theorem optionalFunction_eq (function : String) :
    (optionalFunction function args position : Action σ (Option Value)) =
      match argumentOrNil args position with
      | .nil => pure none
      | .function f => pure (some (.function f))
      | other => fail (.wrongType position function "function" (some other.typeName)) := by
  unfold optionalFunction mismatch
  cases hv : argumentOrNil args position with
  | nil => rfl
  | function f => rfl
  | _ =>
    rw [argument?_of_ne_nil (by rw [hv]; exact nofun), hv]
    rfl

end

/-! ## the functions -/

section
variable {σ : Type} (host : Host σ) {args : List Value} {c : TypedCall}

theorem concatFunction_eq (h : LibraryFunction.concat.decode? args = some c) :
    host.concatFunction args = c.run host := by
  simp only [LibraryFunction.decode?, Option.bind_eq_bind, Option.bind_eq_some_iff] at h
  obtain ⟨list, hlist, separator, hseparator, first, hfirst, last, hlast, hc⟩ := h
  cases hc
  simp only [Host.concatFunction, hlist, optionalText_of_decoded hseparator,
    optionalInteger_of_decoded hfirst, optionalInteger_of_decoded hlast, pure_bind,
    TypedCall.run, Host.concat, bind_assoc]

theorem insertFunction_eq (h : LibraryFunction.insert.decode? args = some c) :
    host.insertFunction args = c.run host := by
  dsimp only [LibraryFunction.decode?] at h
  split at h
  · cases h
    simp only [Host.insertFunction, TypedCall.run, Host.insert, bind_assoc]
    rfl
  · next list position v =>
    rw [Option.bind_eq_bind, Option.bind_eq_some_iff] at h
    obtain ⟨n, hn, hc⟩ := h
    cases hc
    have hposition : (argumentOrNil [list, position, v] 2).toInteger? = some n := hn
    simp only [Host.insertFunction, checkInteger_of_decoded hposition, pure_bind, TypedCall.run,
      Host.insert, bind_assoc]
    rfl
  · cases h

theorem moveFunction_eq (h : LibraryFunction.move.decode? args = some c) :
    host.moveFunction args = c.run host := by
  simp only [LibraryFunction.decode?, Option.bind_eq_bind, Option.bind_eq_some_iff] at h
  obtain ⟨source, hsource, first, hfirst, last, hlast, destination, hdestination, target, htarget,
    hc⟩ := h
  cases hc
  simp only [Host.moveFunction, checkInteger_of_decoded hfirst, checkInteger_of_decoded hlast,
    checkInteger_of_decoded hdestination, pure_bind, hsource, TypedCall.run, Host.move, bind_assoc]
  rcases optional?_cases htarget with ⟨habsent, rfl⟩ | ⟨v, hsupplied, hv, rfl⟩
  · simp only [habsent, if_true, hsource, bind_assoc, pure_bind]
  · have hfifth : argument? args 5 = some v :=
      (argument?_of_ne_nil (mt Value.isNil_iff.mpr (Bool.eq_false_iff.mp hsupplied))).trans hv
    simp only [hsupplied, Bool.false_eq_true, if_false, hfifth, bind_assoc, pure_bind]

theorem removeFunction_eq (h : LibraryFunction.remove.decode? args = some c) :
    host.removeFunction args = c.run host := by
  simp only [LibraryFunction.decode?, Option.bind_eq_bind, Option.bind_eq_some_iff] at h
  obtain ⟨list, hlist, position, hposition, hc⟩ := h
  cases hc
  simp only [Host.removeFunction, hlist, optionalInteger_of_decoded hposition, pure_bind,
    TypedCall.run, Host.remove, bind_assoc]

theorem sortFunction_eq (h : LibraryFunction.sort.decode? args = some c) :
    host.sortFunction args = c.run host := by
  simp only [LibraryFunction.decode?, Option.bind_eq_bind, Option.bind_eq_some_iff] at h
  obtain ⟨list, hlist, hc⟩ := h
  cases hc
  simp only [Host.sortFunction, hlist, optionalFunction_eq, TypedCall.run, Host.sort, bind_assoc]
  refine congrArg _ (funext fun x => ?_)
  cases argumentOrNil args 2 <;> simp only [pure_bind, fail_bind]

theorem unpackFunction_eq (h : LibraryFunction.unpack.decode? args = some c) :
    host.unpackFunction args = c.run host := by
  simp only [LibraryFunction.decode?, Option.bind_eq_bind, Option.bind_eq_some_iff] at h
  obtain ⟨first, hfirst, last, hlast, hc⟩ := h
  cases hc
  simp only [Host.unpackFunction, optionalInteger_of_decoded hfirst,
    optionalInteger_of_decoded hlast, pure_bind, TypedCall.run]

/-- a function is the operation on what its arguments decode to, on every host -/
theorem library_eq_run {f : LibraryFunction} (h : f.decode? args = some c) :
    host.library f args = c.run host := by
  cases f with
  | concat => exact concatFunction_eq host h
  | insert => exact insertFunction_eq host h
  | move => exact moveFunction_eq host h
  | pack =>
    cases h
    rfl
  | remove => exact removeFunction_eq host h
  | sort => exact sortFunction_eq host h
  | unpack => exact unpackFunction_eq host h

end

/-! ## functions of the machine -/

theorem LibraryFunction.name_injective {f g : LibraryFunction} (h : f.name = g.name) : f = g := by
  have hname := ofName?_name f
  rw [h, ofName?_name] at hname
  exact (Option.some.inj hname).symm

def Machine.HasCode (id : FunctionId) (code : Code) (m : Machine) : Prop :=
  id.index < m.heap.functions.size ∧ (m.heap.function id).code = code

theorem lasting_hasCode (id : FunctionId) (code : Code) : Lasting (Machine.HasCode id code) where
  heap m h hchange hm := by
    cases hchange with
    | newFunction f =>
      have hnext : id.index ≠ m.heap.functions.size := Nat.ne_of_lt hm.1
      refine ⟨?_, ?_⟩
      · show id.index < (m.heap.functions.push f).size
        rw [Cells.size, Cells.push, Array.size_push]
        exact Nat.lt_succ_of_lt hm.1
      · show ((m.heap.functions.push f).get id.index).code = code
        rw [Cells.get_push, if_neg hnext]
        exact hm.2
    | _ => exact hm
  session _ _ hm := hm
  depth _ _ hm := hm

/-- a table has a function of the library under its name -/
def Offers (t : Table) (f : LibraryFunction) (m : Machine) : Prop :=
  ∃ id, t.getString f.name = .function id ∧ m.HasCode id (.library f)

theorem lasting_offers (t : Table) (f : LibraryFunction) : Lasting (Offers t f) where
  heap m h hchange hm := by
    obtain ⟨id, hid, hcode⟩ := hm
    exact ⟨id, hid, (lasting_hasCode id _).heap m h hchange hcode⟩
  session _ _ hm := hm
  depth _ _ hm := hm

theorem Offers.setString {t : Table} {f g : LibraryFunction} {m : Machine} (ht : t.WellFormed)
    {id : FunctionId} (hid : m.HasCode id (.library f)) (h : g = f ∨ Offers t g m) :
    Offers (t.setString f.name (.function id)) g m := by
  have hread : (t.setString f.name (.function id)).getString g.name
      = if Key.string f.name = .string g.name then .function id else t.getString g.name :=
    Table.getKey_setKey ht (.string f.name) (.function id) (.string g.name)
  by_cases hgf : g = f
  · subst hgf
    rw [if_pos rfl] at hread
    exact ⟨id, hread, hid⟩
  · obtain ⟨id', hid', hcode⟩ := h.resolve_left hgf
    have hname : Key.string f.name ≠ .string g.name := fun he =>
      hgf (LibraryFunction.name_injective (Key.string.inj he)).symm
    rw [if_neg hname, hid'] at hread
    exact ⟨id', hread, hcode⟩

theorem ends_newFunction {P : Machine → Prop} (hP : Steady P) (function : Function) :
    Ends P (EvalM.newFunction function) (fun id m => m.HasCode id function.code ∧ P m)
      fun _ _ => False := by
  intro m hm
  refine ⟨⟨?_, ?_⟩, hP.heap m _ (.newFunction function) hm⟩
  · show m.heap.functions.size < (m.heap.functions.push function).size
    rw [Cells.size, Cells.size, Cells.push, Array.size_push]
    exact Nat.lt_succ_self _
  · show ((m.heap.functions.push function).get m.heap.functions.size).code = function.code
    rw [Cells.get_push, if_pos rfl]

theorem ends_addFunctions (fs : List LibraryFunction) :
    ∀ (t : Table) (offered : LibraryFunction → Prop), t.WellFormed →
      Ends (fun m => ∀ g, offered g → Offers t g m) (EvalM.addFunctions fs t)
        (fun t m => t.WellFormed ∧ ∀ g, offered g ∨ g ∈ fs → Offers t g m) fun _ _ => False := by
  induction fs with
  | nil =>
    intro t offered ht
    exact Ends.pure fun m hm => ⟨ht, fun g hg => hm g (hg.resolve_right List.not_mem_nil)⟩
  | cons f fs ih =>
    intro t offered ht
    have hsteady : Steady fun m => ∀ g, offered g → Offers t g m :=
      ⟨fun m h hchange hm g hg => (lasting_offers t g).heap m h hchange (hm g hg),
        fun m s hm g hg => (lasting_offers t g).session m s (hm g hg)⟩
    refine Ends.bind (ends_newFunction hsteady _) fun id => ?_
    refine (ih _ (fun g => offered g ∨ g = f) (ht.setKey (k := .string f.name) trivial _)).mono
      (fun m hm g hg => ?_) (fun t m hm => ⟨hm.1, fun g hg => hm.2 g ?_⟩) fun _ _ he => he
    · exact Offers.setString ht hm.1 (hg.symm.imp_right (hm.2 g))
    · rcases hg with hg | hg
      · exact Or.inl (Or.inl hg)
      · exact (List.mem_cons.mp hg).imp_left Or.inr

theorem ends_openLibrary : Ends (fun _ => True) EvalM.openLibrary
    (fun id m => ∀ f, Offers (m.heap.table id) f m) fun _ _ => False := by
  refine Ends.bind ((ends_addFunctions LibraryFunction.all {} (fun _ => False)
    Table.WellFormed.empty).mono (fun _ _ _ hg => hg.elim) (fun _ _ ht => ht) fun _ _ he => he)
    fun t => ?_
  refine Ends.of_and fun ht => ?_
  intro m hm f
  obtain ⟨id, hid, hcode⟩ := hm f (Or.inr f.mem_all)
  refine ⟨id, ?_, hcode⟩
  show (((m.heap.pushTable t).write m.globals (.string EvalM.libraryGlobal) _).table
    m.heap.nextTable).getKey (.string f.name) = .function id
  have hnew : (m.heap.pushTable t).table m.heap.nextTable = t := by
    rw [Heap.table_pushTable, if_pos rfl]
  -- the table of the globals may be a number that no table had yet
  by_cases hglobals : m.heap.nextTable = m.globals
  · have hname : Key.string EvalM.libraryGlobal ≠ .string f.name := by
      intro he
      cases f <;> exact absurd (Key.string.inj he) (by decide)
    rw [← hglobals, Heap.table_write_self, hnew, Table.getKey_setKey ht, if_neg hname]
    exact hid
  · rw [Heap.table_write_of_ne _ hglobals, hnew]
    exact hid

/-! ## the two entries -/

/-- **A function of the library is the operation on what its arguments decode to.**  As actions the
two are equal on every host, so they have the same results or the same error, ask for the same
hooks and comparators in the same order, and leave the same state behind.  A function that the machine
offers in its namespace keeps its code whatever runs.  Where one more call may run, calling it is
the operation run with one more call counted, whichever way its hooks are called. -/
theorem entries_agree {f : LibraryFunction} {args : List Value} {c : TypedCall}
    (hc : f.decode? args = some c) :
    (∀ {σ : Type} (host : Host σ), host.library f args = c.run host) ∧
    ∀ m : Machine, ∃ id m₁ function, EvalM.openLibrary.run m = .ok id m₁ ∧
      (m₁.heap.table id).getString f.name = .function function ∧
      m₁.HasCode function (.library f) ∧ Lasting (Machine.HasCode function (.library f)) ∧
      ∀ m₂ : Machine, m₂.HasCode function (.library f) →
        (∀ call : Caller, (EvalM.dispatch call (.function function) args).run m₂
          = (c.run (Machine.host call)).run m₂) ∧
        (m₂.depth < m₂.limits.maxCallDepth → (EvalM.call (.function function) args).run m₂
          = (EvalM.nested (c.run (Machine.host EvalM.call))).run m₂) := by
  refine ⟨fun host => library_eq_run host hc, fun m => ?_⟩
  obtain ⟨id, m₁, hopen, hoffers⟩ := ends_openLibrary.exists_ok (s := m) trivial
  obtain ⟨function, hfunction, hcode⟩ := hoffers f
  refine ⟨id, m₁, function, hopen, hfunction, hcode, lasting_hasCode _ _, fun m₂ hm₂ => ?_⟩
  have hdispatch : ∀ (call : Caller) (m : Machine), m.HasCode function (.library f) →
      (EvalM.dispatch call (.function function) args).run m = (c.run (Machine.host call)).run m := by
    intro call m hm
    show (EvalM.runCode call (m.heap.function function).code args).run m = _
    rw [hm.2, ← library_eq_run (Machine.host call) hc]
    rfl
  refine ⟨fun call => hdispatch call m₂ hm₂, fun hdepth => ?_⟩
  rw [call_run, if_neg (Nat.not_le.mpr hdepth)]
  exact nested_congr (hdispatch EvalM.call { m₂ with depth := m₂.depth + 1 } hm₂)

/-- a number as separator, the start left out, the end as text, and one argument more -/
def textArguments : List Value := [.table ⟨0⟩, .integer 7, .nil, .string "2", .nil]

theorem entries_agree_texts :
    LibraryFunction.concat.decode? textArguments
      = some (.concat (.table ⟨0⟩) "7" none (some 2)) ∧
    (Machine.host EvalM.call).library .concat textArguments
      = (TypedCall.concat (.table ⟨0⟩) "7" none (some 2)).run (Machine.host EvalM.call) ∧
    ∃ id m function, EvalM.openLibrary.run (Machine.start {}) = .ok id m ∧
      (m.heap.table id).getString "concat" = .function function ∧
      m.depth < m.limits.maxCallDepth ∧
      (EvalM.call (.function function) textArguments).run m = (EvalM.nested
        ((TypedCall.concat (.table ⟨0⟩) "7" none (some 2)).run (Machine.host EvalM.call))).run m := by
  have hdecode : LibraryFunction.concat.decode? textArguments
      = some (.concat (.table ⟨0⟩) "7" none (some 2)) := rfl
  obtain ⟨hlibrary, hopened⟩ := entries_agree hdecode
  obtain ⟨id, m, function, hopen, hfunction, hcode, _, hcalls⟩ := hopened (Machine.start {})
  have hdepth : m.depth < m.limits.maxCallDepth := by
    cases hopen
    decide
  exact ⟨hdecode, hlibrary _, id, m, function, hopen, hfunction, hdepth, (hcalls m hcode).2 hdepth⟩

end ScriptTables
