import Mathlib.Data.List.Forall2
import ScriptTables.Proofs.InStep
import ScriptTables.Proofs.Library.Gathering
import ScriptTables.Proofs.Sort.Parallel
import ScriptTables.Library.Namespace
import ScriptTables.Table.Lemmas

/-!
# Companion hosts

The functions of the library act on a state only through their host.  So when the actions of two hosts
are in step, the functions of the library are in step on them: for operands that the two hosts take
for collections that correspond, each call has the same results or the same error.

* `Host.Companions A B R V O C`   two hosts on states related by `R`: `O` relates the operands that
                                  correspond, `C` the collections that they are checked to be, and
                                  `V` is true of all elements;
* `Companions.Asks`               a question of a sort that is in step;
* `Arguments O places`            argument lists that differ only in operands at certain places;
* `Companions.library`            every function of the library that makes no table is in step;
* `Companions.insert`, ...        so are the operations on values.
-/

namespace ScriptTables

section
variable {σ τ : Type} {A : Host σ} {B : Host τ} {R : σ → τ → Prop} {V : Value → Prop}
  {O : Value → Value → Prop} {C : Collection → Collection → Prop}

structure Host.Companions (A : Host σ) (B : Host τ) (R : σ → τ → Prop) (V : Value → Prop)
    (O : Value → Value → Prop) (C : Collection → Collection → Prop) : Prop where
  nil : V .nil
  operand_nil : O .nil .nil
  operand_isNil : ∀ v w, O v w → v.isNil = w.isNil
  check : ∀ v w, O v w → ∀ position function required,
    InStep R C (A.checkCollection (some v) position function required)
      (B.checkCollection (some w) position function required)
  sameAs : ∀ c d c' d', C c d → C c' d' → c.sameAs c' = d.sameAs d'
  get : ∀ c d, C c d → ∀ i, InStep R (fun a b => a = b ∧ V a) (c.get A i) (d.get B i)
  set : ∀ c d, C c d → ∀ i v, V v → InStep R (· = ·) (c.set A i v) (d.set B i v)
  border : ∀ c d, C c d → InStep R (· = ·) (c.border A) (d.border B)
  fits : ∀ n, InStep R (· = ·) (A.fits n) (B.fits n)

/-! ## arguments -/

/-- what stands at one of the places corresponds, and the rest is the same -/
structure Arguments (O : Value → Value → Prop) (places : List Nat) (args args' : List Value) :
    Prop where
  length : args.length = args'.length
  operand : ∀ i ∈ places, ∀ v w, argument? args i = some v → argument? args' i = some w → O v w
  same : ∀ i, i ∉ places → argument? args i = argument? args' i

namespace Arguments

variable {places : List Nat} {args args' : List Value}

theorem argument?_cases (h : Arguments O places args args') {i : Nat} (hi : i ∈ places) :
    (argument? args i = none ∧ argument? args' i = none) ∨
      ∃ v w, argument? args i = some v ∧ argument? args' i = some w ∧ O v w := by
  have hlength := h.length
  cases hv : argument? args i with
  | none =>
    refine Or.inl ⟨rfl, ?_⟩
    cases i with
    | zero => rfl
    | succ n =>
      rw [argument?_eq_none (Nat.succ_ne_zero n)] at hv ⊢
      omega
  | some v =>
    cases hw : argument? args' i with
    | none =>
      cases i with
      | zero => cases hv
      | succ n =>
        rw [argument?_eq_none (Nat.succ_ne_zero n), ← hlength,
          ← argument?_eq_none (Nat.succ_ne_zero n), hv] at hw
        cases hw
    | some w => exact Or.inr ⟨v, w, rfl, rfl, h.operand i hi v w hv hw⟩

theorem argumentOrNil_eq (h : Arguments O places args args') {i : Nat} (hi : i ∉ places) :
    argumentOrNil args i = argumentOrNil args' i := by
  rw [argumentOrNil, argumentOrNil, h.same i hi]

theorem mismatch_eq (h : Arguments O places args args') {i : Nat} (hi : i ∉ places)
    (function expected : String) :
    mismatch function args i expected = mismatch function args' i expected := by
  rw [mismatch, mismatch, h.same i hi]

variable {function : String} {i : Nat}

theorem checkInteger (h : Arguments O places args args') (hi : i ∉ places) :
    (InStep R (· = ·) (ScriptTables.checkInteger function args i)
      (ScriptTables.checkInteger function args' i)) := by
  unfold ScriptTables.checkInteger integerFault
  rw [h.argumentOrNil_eq hi, h.mismatch_eq hi]
  cases (argumentOrNil args' i).toInteger? with
  | some n => exact Alike.pure rfl
  | none => exact InStep.fail _

theorem optionalInteger (h : Arguments O places args args') (hi : i ∉ places) :
    (InStep R (· = ·) (ScriptTables.optionalInteger function args i)
      (ScriptTables.optionalInteger function args' i)) := by
  unfold ScriptTables.optionalInteger isAbsent
  rw [h.argumentOrNil_eq hi]
  refine InStep.ite (fun _ => Alike.pure rfl) fun _ => ?_
  exact Alike.bind_eq (h.checkInteger hi) fun n => Alike.pure rfl

theorem optionalText (h : Arguments O places args args') (hi : i ∉ places) :
    (InStep R (· = ·) (ScriptTables.optionalText function args i)
      (ScriptTables.optionalText function args' i)) := by
  unfold ScriptTables.optionalText isAbsent
  rw [h.argumentOrNil_eq hi, h.mismatch_eq hi]
  refine InStep.ite (fun _ => Alike.pure rfl) fun _ => ?_
  cases (argumentOrNil args' i).toText? with
  | some s => exact Alike.pure rfl
  | none => exact InStep.fail _

end Arguments

/-- the comparator that a value stands for: none for `nil`, and nothing for a value that is refused -/
def comparator? : Value → Option (Option Value)
  | .nil => some none
  | .function f => some (some (.function f))
  | _ => none

theorem optionalFunction_of_some {ρ : Type} {args : List Value} {i : Nat} {c : Option Value}
    (h : comparator? (argumentOrNil args i) = some c) (function : String) :
    (optionalFunction function args i : Action ρ (Option Value)) = pure c := by
  unfold optionalFunction
  cases hv : argumentOrNil args i <;> rw [hv] at h <;> cases h <;> rfl

theorem optionalFunction_of_none {ρ : Type} {args : List Value} {i : Nat}
    (h : comparator? (argumentOrNil args i) = none) (function : String) :
    (optionalFunction function args i : Action ρ (Option Value))
      = fail (mismatch function args i "function") := by
  unfold optionalFunction
  cases hv : argumentOrNil args i <;> rw [hv] at h <;> cases h

namespace Host.Companions

variable {c d c' d' : Collection} {v w : Value}

/-! ## collections -/

theorem collectionWithBorder (h : A.Companions B R V O C) (hvw : O v w) (position : Nat)
    (function : String) (required : Capabilities) :
    InStep R (fun p q => C p.1 q.1 ∧ p.2 = q.2)
      (A.collectionWithBorder (some v) position function required)
      (B.collectionWithBorder (some w) position function required) := by
  refine Alike.bind (h.check v w hvw position function _) fun c d hcd => ?_
  exact Alike.bind_eq (h.border c d hcd) fun border => Alike.pure ⟨hcd, rfl⟩

section
variable {places : List Nat} {args args' : List Value} {i : Nat}

theorem checkArgument (h : A.Companions B R V O C) (hargs : Arguments O places args args')
    (hi : i ∈ places) (function : String) (required : Capabilities) :
    InStep R C (A.checkCollection (argument? args i) i function required)
      (B.checkCollection (argument? args' i) i function required) := by
  rcases hargs.argument?_cases hi with ⟨hv, hw⟩ | ⟨v, w, hv, hw, hvw⟩
  · rw [hv, hw]
    exact InStep.fail _
  · rw [hv, hw]
    exact h.check v w hvw i function required

theorem argumentWithBorder (h : A.Companions B R V O C) (hargs : Arguments O places args args')
    (hi : i ∈ places) (function : String) (required : Capabilities) :
    InStep R (fun p q => C p.1 q.1 ∧ p.2 = q.2)
      (A.collectionWithBorder (argument? args i) i function required)
      (B.collectionWithBorder (argument? args' i) i function required) := by
  refine Alike.bind (h.checkArgument hargs hi function _) fun c d hcd => ?_
  exact Alike.bind_eq (h.border c d hcd) fun border => Alike.pure ⟨hcd, rfl⟩

end

/-! ## inserting and removing -/

theorem shiftUp (h : A.Companions B R V O C) (hcd : C c d) (n : Nat) :
    ∀ top, InStep R (· = ·) (c.shiftUp A n top) (d.shiftUp B n top) := by
  induction n with
  | zero => exact fun top => Alike.pure rfl
  | succ n ih =>
    intro top
    refine Alike.bind_same (h.get c d hcd (top - 1)) fun v hv => ?_
    exact Alike.bind_eq (h.set c d hcd top v hv) fun _ => ih (top - 1)

theorem insertAt (h : A.Companions B R V O C) (hcd : C c d) (border : Int64)
    (position : Option Int64) (hv : V v) :
    InStep R (· = ·) (c.insertAt A border position v) (d.insertAt B border position v) := by
  unfold Collection.insertAt
  cases position with
  | none => exact h.set c d hcd _ v hv
  | some position =>
    refine InStep.ite (fun _ => InStep.fail _) fun _ => ?_
    exact Alike.bind_eq (h.shiftUp hcd _ _) fun _ => h.set c d hcd _ v hv

theorem insert (h : A.Companions B R V O C) {list list' : Value} (hlist : O list list')
    (position : Option Int64) (hv : V v) :
    InStep R (· = ·) (A.insert list position v) (B.insert list' position v) := by
  refine Alike.bind (h.collectionWithBorder hlist _ _ _) fun p q hpq => ?_
  obtain ⟨c, border⟩ := p
  obtain ⟨d, border'⟩ := q
  obtain ⟨hcd, rfl⟩ := hpq
  exact h.insertAt hcd border position hv

theorem shiftDown (h : A.Companions B R V O C) (hcd : C c d) (n : Nat) :
    ∀ bottom, InStep R (· = ·) (c.shiftDown A n bottom) (d.shiftDown B n bottom) := by
  induction n with
  | zero => exact fun bottom => Alike.pure rfl
  | succ n ih =>
    intro bottom
    refine Alike.bind_same (h.get c d hcd (bottom + 1)) fun v hv => ?_
    exact Alike.bind_eq (h.set c d hcd bottom v hv) fun _ => ih (bottom + 1)

theorem removeAt (h : A.Companions B R V O C) (hcd : C c d) (border : Int64)
    (position : Option Int64) :
    InStep R (fun a b => a = b ∧ ∀ v ∈ a, V v) (c.removeAt A border position)
      (d.removeAt B border position) := by
  unfold Collection.removeAt
  refine InStep.ite (fun _ => ?_) fun _ =>
    Alike.pure ⟨rfl, fun _ hv => absurd hv (Option.not_mem_none _)⟩
  refine Alike.bind_same (h.get c d hcd _) fun removed hremoved => ?_
  refine Alike.bind_eq (h.shiftDown hcd _ _) fun _ => ?_
  refine Alike.bind_eq (h.set c d hcd _ _ h.nil) fun _ => Alike.pure ⟨rfl, fun v hv => ?_⟩
  obtain rfl := Option.some.inj hv
  exact hremoved

theorem remove (h : A.Companions B R V O C) {list list' : Value} (hlist : O list list')
    (position : Option Int64) :
    InStep R (fun a b => a = b ∧ ∀ v ∈ a, V v) (A.remove list position)
      (B.remove list' position) := by
  refine Alike.bind (h.collectionWithBorder hlist _ _ _) fun p q hpq => ?_
  obtain ⟨c, border⟩ := p
  obtain ⟨d, border'⟩ := q
  obtain ⟨hcd, rfl⟩ := hpq
  exact h.removeAt hcd border position

/-! ## moving -/

theorem copyUpward (h : A.Companions B R V O C) (hcd : C c d) (hcd' : C c' d') (n : Nat) :
    ∀ i j, InStep R (· = ·) (Collection.copyUpward A c c' n i j)
      (Collection.copyUpward B d d' n i j) := by
  induction n with
  | zero => exact fun i j => Alike.pure rfl
  | succ n ih =>
    intro i j
    refine Alike.bind_same (h.get c d hcd i) fun v hv => ?_
    exact Alike.bind_eq (h.set c' d' hcd' j v hv) fun _ => ih (i + 1) (j + 1)

theorem copyDownward (h : A.Companions B R V O C) (hcd : C c d) (hcd' : C c' d') (i j : Int)
    (n : Nat) :
    InStep R (· = ·) (Collection.copyDownward A c c' i j n)
      (Collection.copyDownward B d d' i j n) := by
  induction n with
  | zero => exact Alike.pure rfl
  | succ n ih =>
    refine Alike.bind_same (h.get c d hcd (i + n)) fun v hv => ?_
    exact Alike.bind_eq (h.set c' d' hcd' (j + n) v hv) fun _ => ih

theorem moveBetween (h : A.Companions B R V O C) (hcd : C c d) (hcd' : C c' d') (r : MoveRange) :
    InStep R (· = ·) (A.moveBetween c r c') (B.moveBetween d r d') := by
  unfold Host.moveBetween
  rw [h.sameAs c d c' d' hcd hcd']
  refine InStep.ite (fun _ => Alike.pure rfl) fun _ => ?_
  cases r.fault? with
  | some fault => exact InStep.fail fault
  | none =>
    exact InStep.ite (fun _ => h.copyUpward hcd hcd' _ _ _) fun _ => h.copyDownward hcd hcd' _ _ _

theorem moveResult (h : A.Companions B R V O C) (hcd : C c d) (hcd' : C c' d') (r : MoveRange) :
    InStep R (fun v w => ∃ c d, C c d ∧ v = c.value ∧ w = d.value)
      (do A.moveBetween c r c'; pure c'.value) (do B.moveBetween d r d'; pure d'.value) :=
  Alike.bind_eq (h.moveBetween hcd hcd' r) fun _ => Alike.pure ⟨c', d', hcd', rfl, rfl⟩

theorem move (h : A.Companions B R V O C) {source source' : Value} (hsource : O source source')
    (r : MoveRange) {target target' : Option Value}
    (htarget : (target = none ∧ target' = none) ∨
      ∃ v w, target = some v ∧ target' = some w ∧ O v w) :
    InStep R (fun v w => ∃ c d, C c d ∧ v = c.value ∧ w = d.value)
      (A.move source r target) (B.move source' r target') := by
  refine Alike.bind (h.check source source' hsource _ _ _) fun c d hcd => ?_
  rcases htarget with ⟨rfl, rfl⟩ | ⟨v, w, rfl, rfl, hvw⟩
  · exact Alike.bind (h.check source source' hsource _ _ _) fun c' d' hcd' =>
      h.moveResult hcd hcd' r
  · exact Alike.bind (h.check v w hvw _ _ _) fun c' d' hcd' => h.moveResult hcd hcd' r

/-! ## between lists and values -/

theorem gather {α : Type} {M : α → Prop} {f : Int → Action σ α} {g : Int → Action τ α}
    (hfg : ∀ i, InStep R (fun a b => a = b ∧ M a) (f i) (g i)) (n : Nat) (i : Int) :
    InStep R (fun as bs => as = bs ∧ ∀ a ∈ as, M a) (ScriptTables.gather f n i)
      (ScriptTables.gather g n i) := by
  induction n generalizing i with
  | zero => exact Alike.pure ⟨rfl, fun a ha => absurd ha List.not_mem_nil⟩
  | succ n ih =>
    rw [gather_succ, gather_succ]
    refine Alike.bind_same (hfg i) fun a ha => Alike.bind_same (ih (i + 1)) fun as has => ?_
    refine Alike.pure ⟨rfl, fun b hb => ?_⟩
    rcases List.mem_cons.mp hb with rfl | hb
    · exact ha
    · exact has b hb

theorem join (h : A.Companions B R V O C) (hcd : C c d) (border : Int64) (separator : String)
    (first last : Option Int64) :
    InStep R (· = ·) (c.join A border separator first last)
      (d.join B border separator first last) := by
  have htext : ∀ i, InStep R (fun a b => a = b ∧ True) (c.textAt A i) (d.textAt B i) := by
    intro i
    refine Alike.bind_same (h.get c d hcd i) fun v _ => ?_
    cases v.toText? with
    | some text => exact Alike.pure ⟨rfl, trivial⟩
    | none => exact InStep.fail _
  exact Alike.bind_same (gather htext _ _) fun texts _ => Alike.pure rfl

theorem concat (h : A.Companions B R V O C) {list list' : Value} (hlist : O list list')
    (separator : String) (first last : Option Int64) :
    InStep R (· = ·) (A.concat list separator first last)
      (B.concat list' separator first last) := by
  refine Alike.bind (h.collectionWithBorder hlist _ _ _) fun p q hpq => ?_
  obtain ⟨c, border⟩ := p
  obtain ⟨d, border'⟩ := q
  obtain ⟨hcd, rfl⟩ := hpq
  exact h.join hcd border separator first last

theorem unpackEntry (h : A.Companions B R V O C) {list list' : Value} (hlist : O list list')
    (last : Option Int64) :
    InStep R (fun p q => C p.1 q.1 ∧ p.2 = q.2) (A.unpackEntry list last)
      (B.unpackEntry list' last) := by
  cases last with
  | some last =>
    exact Alike.bind (h.check list list' hlist _ _ _) fun c d hcd => Alike.pure ⟨hcd, rfl⟩
  | none => exact h.collectionWithBorder hlist _ _ _

theorem unpackStart (h : A.Companions B R V O C) {list list' : Value} (hlist : O list list')
    (first : Int64) (last : Option Int64) :
    InStep R (fun p q => C p.1 q.1 ∧ p.2 = q.2) (A.unpackStart list first last)
      (B.unpackStart list' first last) := by
  refine Alike.bind (h.unpackEntry hlist last) fun p q hpq => ?_
  obtain ⟨c, last⟩ := p
  obtain ⟨d, last'⟩ := q
  obtain ⟨hcd, rfl⟩ := hpq
  have hcount : InStep R (· = ·) (A.resultCount first last) (B.resultCount first last) := by
    refine InStep.ite (fun _ => InStep.fail _) fun _ => ?_
    exact Alike.bind_eq (h.fits _) fun fits => Alike.ite (Alike.pure rfl) (InStep.fail _)
  exact Alike.bind_eq hcount fun n => Alike.pure ⟨hcd, rfl⟩

theorem unpack (h : A.Companions B R V O C) {list list' : Value} (hlist : O list list')
    (first last : Option Int64) :
    InStep R (fun vs ws => vs = ws ∧ ∀ v ∈ vs, V v) (A.unpack list first last)
      (B.unpack list' first last) := by
  rw [Host.unpack_eq, Host.unpack_eq]
  refine Alike.bind (h.unpackStart hlist _ last) fun p q hpq => ?_
  obtain ⟨c, n⟩ := p
  obtain ⟨d, n'⟩ := q
  obtain ⟨hcd, rfl⟩ := hpq
  exact gather (h.get c d hcd) _ _

/-! ## sorting -/

/-- a question of a sort is in step on all elements -/
def Asks (A : Host σ) (B : Host τ) (R : σ → τ → Prop) (V : Value → Prop)
    (comparator : Option Value) : Prop :=
  ∀ a b, V a → V b → InStep R (· = ·) (A.precedes comparator a b) (B.precedes comparator a b)

/-- a comparator is in step when calling it is, and the order of the hosts when asking for it is -/
theorem asks_call {f : Value} (hcall : ∀ a b, V a → V b →
      InStep R (· = ·) (A.call f [a, b]) (B.call f [a, b])) : Asks A B R V (some f) := by
  intro a b ha hb
  refine Alike.bind_eq (InStep.tryCatch (hcall a b ha hb) fun e => InStep.throw _) fun answer => ?_
  exact Alike.pure rfl

theorem slots (h : A.Companions B R V O C) (hcd : C c d) {comparator : Option Value}
    (hasks : Asks A B R V comparator) (n : Nat) :
    Slots.Parallel (c.slots A comparator) (d.slots B comparator) n R (SameError R)
      (fun a b => a = b ∧ V a) where
  get i _ _ := h.get c d hcd i
  swap i j _ _ _ _ := by
    refine Alike.bind_same (h.get c d hcd i) fun a ha => ?_
    refine Alike.bind_same (h.get c d hcd j) fun b hb => ?_
    refine Alike.bind_eq (h.set c d hcd i b hb) fun _ => ?_
    exact (h.set c d hcd j a ha).mono fun _ _ _ => trivial
  less := by
    intro a b x y hab hxy
    obtain ⟨rfl, ha⟩ := hab
    obtain ⟨rfl, hx⟩ := hxy
    exact hasks a x ha hx

theorem sortElements (h : A.Companions B R V O C) (hcd : C c d) {comparator : Option Value}
    (hasks : Asks A B R V comparator) (border : Int64) :
    InStep R (· = ·) (c.sortElements A border comparator)
      (d.sortElements B border comparator) := by
  unfold Collection.sortElements
  refine InStep.ite (fun _ => Alike.pure rfl) fun _ => ?_
  refine InStep.ite (fun _ => InStep.fail _) fun _ => ?_
  have hsort := (h.slots hcd hasks border.toInt.toNat).sortRange
    (depthBudget border.toInt.toNat) 1 border.toInt.toNat (Nat.le_refl 1) (Nat.le_refl _)
  exact hsort.mono fun _ _ _ => rfl

theorem sort (h : A.Companions B R V O C) {list list' : Value} (hlist : O list list')
    {comparator : Value} (hasks : ∀ c, comparator? comparator = some c → Asks A B R V c) :
    InStep R (· = ·) (A.sort list comparator) (B.sort list' comparator) := by
  refine Alike.bind (h.collectionWithBorder hlist _ _ _) fun p q hpq => ?_
  obtain ⟨c, border⟩ := p
  obtain ⟨d, border'⟩ := q
  obtain ⟨hcd, rfl⟩ := hpq
  cases comparator with
  | nil => exact h.sortElements hcd (hasks _ rfl) border
  | function f => exact h.sortElements hcd (hasks _ rfl) border
  | _ => exact InStep.fail _

/-! ## the functions of the library -/

end Host.Companions

def inserted? {α : Type} : List α → Option α
  | [_, v] => some v
  | [_, _, v] => some v
  | _ => none

/-- the places of the arguments that have to be collections -/
def LibraryFunction.places : LibraryFunction → List Nat
  | .move => [1, 5]
  | .pack => []
  | _ => [1]

namespace Host.Companions

variable {args args' : List Value}

/-- results that are the same elements or texts, or the collections moved into -/
def Results (V : Value → Prop) (C : Collection → Collection → Prop) :
    List Value → List Value → Prop :=
  List.Forall₂ fun v w =>
    v = w ∧ (V v ∨ ∃ s, v = .string s) ∨ ∃ c d, C c d ∧ v = c.value ∧ w = d.value

theorem Results.of_elements {vs ws : List Value} (h : vs = ws ∧ ∀ v ∈ vs, V v) :
    Results V C vs ws := by
  obtain ⟨rfl, hv⟩ := h
  exact List.forall₂_same.mpr fun v hmem => Or.inl ⟨rfl, Or.inl (hv v hmem)⟩

theorem Results.text (s : String) : Results V C [.string s] [.string s] :=
  List.Forall₂.cons (Or.inl ⟨rfl, Or.inr ⟨s, rfl⟩⟩) List.Forall₂.nil

theorem insertFunction (h : A.Companions B R V O C) (hargs : Arguments O [1] args args')
    (hvalue : ∀ v, inserted? args = some v → V v) :
    InStep R (Results V C) (A.insertFunction args) (B.insertFunction args') := by
  refine Alike.bind (h.argumentWithBorder hargs (List.mem_singleton_self 1) _ _) fun p q hpq => ?_
  obtain ⟨c, border⟩ := p
  obtain ⟨d, border'⟩ := q
  obtain ⟨hcd, rfl⟩ := hpq
  have hlength := hargs.length
  have hsame := hargs.same
  match args, args', hlength with
  | [], [], _ => exact InStep.fail _
  | [_], [_], _ => exact InStep.fail _
  | [_, v], [_, w], _ =>
    obtain rfl : v = w := Option.some.inj (hsame 2 (by decide))
    exact Alike.bind_eq (h.insertAt hcd border none (hvalue v rfl)) fun _ =>
      Alike.pure List.Forall₂.nil
  | [_, _, v], [_, _, w], _ =>
    obtain rfl : v = w := Option.some.inj (hsame 3 (by decide))
    refine Alike.bind_eq (hargs.checkInteger (by decide)) fun position => ?_
    exact Alike.bind_eq (h.insertAt hcd border _ (hvalue v rfl)) fun _ =>
      Alike.pure List.Forall₂.nil
  | _ :: _ :: _ :: _ :: _, _ :: _ :: _ :: _ :: _, _ => exact InStep.fail _

theorem removeFunction (h : A.Companions B R V O C) (hargs : Arguments O [1] args args') :
    InStep R (Results V C) (A.removeFunction args) (B.removeFunction args') := by
  refine Alike.bind (h.argumentWithBorder hargs (List.mem_singleton_self 1) _ _) fun p q hpq => ?_
  obtain ⟨c, border⟩ := p
  obtain ⟨d, border'⟩ := q
  obtain ⟨hcd, rfl⟩ := hpq
  refine Alike.bind_eq (hargs.optionalInteger (by decide)) fun position => ?_
  refine Alike.bind_same (h.removeAt hcd border position) fun removed hremoved =>
    Alike.pure (Results.of_elements ⟨rfl, fun v hv => ?_⟩)
  exact hremoved v (Option.mem_toList.mp hv)

theorem moveFunction (h : A.Companions B R V O C) (hargs : Arguments O [1, 5] args args') :
    InStep R (Results V C) (A.moveFunction args) (B.moveFunction args') := by
  have habsent : isAbsent args 5 = isAbsent args' 5 := by
    unfold isAbsent argumentOrNil
    rcases hargs.argument?_cases (i := 5) (by decide) with ⟨hv, hw⟩ | ⟨v, w, hv, hw, hvw⟩
    · rw [hv, hw]
    · rw [hv, hw]
      exact h.operand_isNil v w hvw
  refine Alike.bind_eq (hargs.checkInteger (by decide)) fun first => ?_
  refine Alike.bind_eq (hargs.checkInteger (by decide)) fun last => ?_
  refine Alike.bind_eq (hargs.checkInteger (by decide)) fun destination => ?_
  refine Alike.bind (h.checkArgument hargs (by decide) _ _) fun c d hcd => ?_
  have htarget : ∀ place, place ∈ [1, 5] → InStep R (Results V C)
      (do
        let c' ← A.checkCollection (argument? args place) place "move" .writing
        A.moveBetween c ⟨first, last, destination⟩ c'
        pure [c'.value])
      (do
        let d' ← B.checkCollection (argument? args' place) place "move" .writing
        B.moveBetween d ⟨first, last, destination⟩ d'
        pure [d'.value]) := by
    intro place hplace
    refine Alike.bind (h.checkArgument hargs hplace _ _) fun c' d' hcd' => ?_
    refine Alike.bind_eq (h.moveBetween hcd hcd' _) fun _ => Alike.pure ?_
    exact List.Forall₂.cons (Or.inr ⟨c', d', hcd', rfl, rfl⟩) List.Forall₂.nil
  rw [habsent]
  refine htarget _ ?_
  split
  · exact List.mem_cons_self
  · exact List.mem_cons_of_mem _ List.mem_cons_self

theorem concatFunction (h : A.Companions B R V O C) (hargs : Arguments O [1] args args') :
    InStep R (Results V C) (A.concatFunction args) (B.concatFunction args') := by
  refine Alike.bind (h.argumentWithBorder hargs (List.mem_singleton_self 1) _ _) fun p q hpq => ?_
  obtain ⟨c, border⟩ := p
  obtain ⟨d, border'⟩ := q
  obtain ⟨hcd, rfl⟩ := hpq
  refine Alike.bind_eq (hargs.optionalText (by decide)) fun separator => ?_
  refine Alike.bind_eq (hargs.optionalInteger (by decide)) fun first => ?_
  refine Alike.bind_eq (hargs.optionalInteger (by decide)) fun last => ?_
  exact Alike.bind_eq (h.join hcd border _ first last) fun joined =>
    Alike.pure (Results.text joined)

theorem unpackFunction (h : A.Companions B R V O C) (hargs : Arguments O [1] args args') :
    InStep R (Results V C) (A.unpackFunction args) (B.unpackFunction args') := by
  have hlist : O (argumentOrNil args 1) (argumentOrNil args' 1) := by
    unfold argumentOrNil
    rcases hargs.argument?_cases (List.mem_singleton_self 1) with ⟨hv, hw⟩ | ⟨v, w, hv, hw, hvw⟩
    · rw [hv, hw]
      exact h.operand_nil
    · rw [hv, hw]
      exact hvw
  refine Alike.bind_eq (hargs.optionalInteger (by decide)) fun first => ?_
  refine Alike.bind_eq (hargs.optionalInteger (by decide)) fun last => ?_
  exact (h.unpack hlist first last).mono fun _ _ => Results.of_elements

theorem sortFunction (h : A.Companions B R V O C) (hargs : Arguments O [1] args args')
    (hasks : ∀ c, comparator? (argumentOrNil args 2) = some c → Asks A B R V c) :
    InStep R (Results V C) (A.sortFunction args) (B.sortFunction args') := by
  refine Alike.bind (h.argumentWithBorder hargs (List.mem_singleton_self 1) _ _) fun p q hpq => ?_
  obtain ⟨c, border⟩ := p
  obtain ⟨d, border'⟩ := q
  obtain ⟨hcd, rfl⟩ := hpq
  have hsecond : argumentOrNil args' 2 = argumentOrNil args 2 :=
    (hargs.argumentOrNil_eq (by decide)).symm
  cases hc : comparator? (argumentOrNil args 2) with
  | none =>
    rw [optionalFunction_of_none hc, optionalFunction_of_none (by rw [hsecond, hc]),
      hargs.mismatch_eq (by decide)]
    exact InStep.fail _
  | some comparator =>
    rw [optionalFunction_of_some hc, optionalFunction_of_some (by rw [hsecond, hc])]
    show InStep R _ (do c.sortElements A border comparator; pure [])
      (do d.sortElements B border comparator; pure [])
    exact Alike.bind_eq (h.sortElements hcd (hasks comparator hc) border) fun _ =>
      Alike.pure List.Forall₂.nil

/-- **Every function of the library that makes no table is in step on companion hosts.** -/
theorem library (h : A.Companions B R V O C) {f : LibraryFunction} (hf : f ≠ .pack)
    (hargs : Arguments O f.places args args')
    (hvalue : f = .insert → ∀ v, inserted? args = some v → V v)
    (hasks : f = .sort → ∀ c, comparator? (argumentOrNil args 2) = some c → Asks A B R V c) :
    InStep R (Results V C) (A.library f args) (B.library f args') := by
  cases f with
  | concat => exact h.concatFunction hargs
  | insert => exact h.insertFunction hargs (hvalue rfl)
  | move => exact h.moveFunction hargs
  | pack => exact absurd rfl hf
  | remove => exact h.removeFunction hargs
  | sort => exact h.sortFunction hargs (hasks rfl)
  | unpack => exact h.unpackFunction hargs

end Host.Companions

end

end ScriptTables
