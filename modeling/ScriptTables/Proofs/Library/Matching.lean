import ScriptTables.Proofs.Library.Companions

/-!
# Hosts that match

Two hosts match when all their actions are in step, whatever they are asked.  Then every collection
of the one is the same collection of the other, and they are companions for equal operands; so the
whole library is in step on them.

* `Host.Matching A B R`       all actions are in step;
* `Host.Matching.companions`  the hosts are companions;
* `Host.Matching.library`     every function of the library is in step.
-/

namespace ScriptTables

section
variable {σ τ : Type} {A : Host σ} {B : Host τ} {R : σ → τ → Prop}

structure Host.Matching (A : Host σ) (B : Host τ) (R : σ → τ → Prop) : Prop where
  metatable? : ∀ v, InStep R (· = ·) (A.metatable? v) (B.metatable? v)
  field : ∀ id name, InStep R (· = ·) (A.field id name) (B.field id name)
  border : ∀ id, InStep R (· = ·) (A.border id) (B.border id)
  length : ∀ v, InStep R (· = ·) (A.length v) (B.length v)
  index : ∀ object key, InStep R (· = ·) (A.index object key) (B.index object key)
  setIndex : ∀ object key v, InStep R (· = ·) (A.setIndex object key v) (B.setIndex object key v)
  lessThan : ∀ a b, InStep R (· = ·) (A.lessThan a b) (B.lessThan a b)
  call : ∀ callee arguments, InStep R (· = ·) (A.call callee arguments) (B.call callee arguments)
  newTable : ∀ t : Table, t.WellFormed → InStep R (· = ·) (A.newTable t) (B.newTable t)
  fits : ∀ n, InStep R (· = ·) (A.fits n) (B.fits n)

namespace Host.Matching

/-! ## collections -/

theorem holdsHooks (h : A.Matching B R) (metatable : TableId) (hooks : List String) :
    InStep R (· = ·) (A.holdsHooks metatable hooks) (B.holdsHooks metatable hooks) := by
  induction hooks with
  | nil => exact Alike.pure rfl
  | cons hook hooks ih =>
    refine Alike.bind_eq (h.field metatable hook) fun handler => ?_
    exact Alike.ite (Alike.pure rfl) ih

theorem checkCollection (h : A.Matching B R) (v : Option Value) (position : Nat)
    (function : String) (required : Capabilities) :
    InStep R (· = ·) (A.checkCollection v position function required)
      (B.checkCollection v position function required) := by
  unfold Host.checkCollection
  split
  · exact InStep.fail _
  · exact Alike.pure rfl
  · refine Alike.bind_eq (h.metatable? _) fun metatable => ?_
    cases metatable with
    | none => exact InStep.fail _
    | some metatable =>
      refine Alike.bind_eq (h.holdsHooks metatable _) fun holds => ?_
      exact Alike.ite (Alike.pure rfl) (InStep.fail _)

theorem collectionBorder (h : A.Matching B R) (c : Collection) :
    InStep R (· = ·) (c.border A) (c.border B) := by
  cases c with
  | native id => exact h.border id
  | protocol object metatable =>
    refine Alike.bind_eq (h.length object) fun answer => ?_
    unfold Collection.lengthOf
    split
    · exact Alike.pure rfl
    · split
      · exact Alike.pure rfl
      · exact InStep.fail _
    · exact InStep.fail _

theorem companions (h : A.Matching B R) :
    A.Companions B R (fun _ => True) (· = ·) (· = ·) where
  nil := trivial
  operand_nil := rfl
  operand_isNil _ _ hvw := congrArg Value.isNil hvw
  check := by
    intro v w hvw position function required
    subst hvw
    exact h.checkCollection (some v) position function required
  sameAs := by
    intro c d c' d' hcd hcd'
    rw [hcd, hcd']
  get := by
    intro c d hcd i
    subst hcd
    exact (h.index _ _).mono fun _ _ hab => ⟨hab, trivial⟩
  set := by
    intro c d hcd i v _
    subst hcd
    exact h.setIndex _ _ v
  border := by
    intro c d hcd
    subst hcd
    exact h.collectionBorder c
  fits := h.fits

theorem collectionWithBorder (h : A.Matching B R) (v : Value) (position : Nat) (function : String)
    (required : Capabilities) :
    InStep R (· = ·) (A.collectionWithBorder (some v) position function required)
      (B.collectionWithBorder (some v) position function required) :=
  (h.companions.collectionWithBorder rfl position function required).mono fun _ _ hpq =>
    Prod.ext hpq.1 hpq.2

theorem unpackEntry (h : A.Matching B R) (list : Value) (last : Option Int64) :
    InStep R (· = ·) (A.unpackEntry list last) (B.unpackEntry list last) :=
  (h.companions.unpackEntry rfl last).mono fun _ _ hpq => Prod.ext hpq.1 hpq.2

theorem unpackStart (h : A.Matching B R) (list : Value) (first : Int64) (last : Option Int64) :
    InStep R (· = ·) (A.unpackStart list first last) (B.unpackStart list first last) :=
  (h.companions.unpackStart rfl first last).mono fun _ _ hpq => Prod.ext hpq.1 hpq.2

/-! ## the library -/

theorem asks (h : A.Matching B R) (comparator : Option Value) :
    Companions.Asks A B R (fun _ => True) comparator := by
  cases comparator with
  | none => exact fun a b _ _ => h.lessThan a b
  | some f => exact Companions.asks_call fun a b _ _ => h.call f [a, b]

theorem sort (h : A.Matching B R) (list comparator : Value) :
    InStep R (· = ·) (A.sort list comparator) (B.sort list comparator) :=
  h.companions.sort rfl fun c _ => h.asks c

theorem move (h : A.Matching B R) (source : Value) (r : MoveRange) (target : Option Value) :
    InStep R (· = ·) (A.move source r target) (B.move source r target) := by
  have htarget : (target = none ∧ target = none) ∨
      ∃ v w, target = some v ∧ target = some w ∧ v = w := by
    cases target with
    | none => exact Or.inl ⟨rfl, rfl⟩
    | some v => exact Or.inr ⟨v, v, rfl, rfl, rfl⟩
  refine (h.companions.move rfl r htarget).mono fun v w hvw => ?_
  obtain ⟨c, d, rfl, rfl, rfl⟩ := hvw
  rfl

theorem pack (h : A.Matching B R) (values : List Value) :
    InStep R (· = ·) (A.pack values) (B.pack values) :=
  h.newTable _ ((Table.WellFormed.ofList values).setKey (k := .string countField) trivial _)

theorem library (h : A.Matching B R) (f : LibraryFunction) (args : List Value) :
    InStep R (· = ·) (A.library f args) (B.library f args) := by
  have hargs : Arguments (· = ·) f.places args args :=
    ⟨rfl, fun _ _ _ _ hv hw => Option.some.inj (hv.symm.trans hw), fun _ _ => rfl⟩
  by_cases hf : f = .pack
  · subst hf
    exact Alike.bind_eq (h.pack args) fun _ => Alike.pure rfl
  · refine (h.companions.library hf hargs (fun _ _ _ => trivial) fun _ c _ => h.asks c).mono
      fun vs ws hvs => ?_
    refine List.forall₂_eq_eq_eq ▸ hvs.imp fun v w hvw => ?_
    rcases hvw with ⟨rfl, _⟩ | ⟨c, d, rfl, rfl, rfl⟩
    · rfl
    · rfl

end Host.Matching

end

end ScriptTables
