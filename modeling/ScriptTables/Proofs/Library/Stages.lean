import ScriptTables.Proofs.Library.Substitution

/-!
# The stages of a call

A call of the library first checks what it was given as lists.  Then the border is known, and the
call still refuses positions, ranges and counts that are wrong.  Only then it works on elements, and
from there on it refuses nothing, but for an element that it has to join to a text.  So what is true
of a call at its end, or where it failed, is a matter of the single actions of its host at these
stages.

* `Stages`                what is said about each stage, and about failures;
* `Stages.Of`             it is true of a host, action by action;
* `Stages.Of.insert`, ... the operations on values;
* `LibraryFunction.supplied`   the arguments that a function checks;
* `Stages.Of.library`     the functions of the library;
* `Stages.Of.listCall`    any call.
-/

namespace ScriptTables

structure Stages (σ : Type) where
  /-- values given as lists -/
  Operand : Value → Prop
  /-- the collections that they are -/
  Checked : Collection → Prop
  /-- what a call refuses -/
  Refusal : Fault → Prop
  /-- until the border of a list is asked for -/
  Start : σ → Prop
  /-- until the first access to an element -/
  Ready : σ → Prop
  Working : σ → Prop
  Failed : Error → σ → Prop

namespace Stages

section
variable {σ α : Type}

structure Of (x : Stages σ) (host : Host σ) : Prop where
  ready : ∀ s, x.Start s → x.Ready s
  working : ∀ s, x.Ready s → x.Working s
  refuse : ∀ fault s, x.Refusal fault → x.Ready s → x.Failed ⟨fault, []⟩ s
  /-- what may be wrong beside the types of arguments -/
  other : ∀ fault, (∀ position function expected got,
    fault ≠ .wrongType position function expected got) → x.Refusal fault
  check : ∀ v position function required, (∀ w, v = some w → x.Operand w) →
    x.Refusal (.wrongType position function "table" (v.map Value.typeName)) →
    Ends x.Start (host.checkCollection v position function required)
      (fun c s => x.Checked c ∧ x.Start s) x.Failed
  border : ∀ c, x.Checked c → Ends x.Start (c.border host) (fun _ => x.Ready) x.Failed
  fits : ∀ n, Ends x.Ready (host.fits n) (fun _ => x.Ready) x.Failed
  get : ∀ c, x.Checked c → ∀ i, Ends x.Working (c.get host i) (fun _ => x.Working) x.Failed

/-- the actions that only some calls take -/
def Writes (x : Stages σ) (host : Host σ) : Prop :=
  ∀ c, x.Checked c → ∀ i v, Ends x.Working (c.set host i v) (fun _ => x.Working) x.Failed

def Asks (x : Stages σ) (host : Host σ) (comparator : Option Value) : Prop :=
  ∀ a b, Ends x.Working (host.precedes comparator a b) (fun _ => x.Working) x.Failed

def Joins (x : Stages σ) : Prop :=
  ∀ type i s, x.Working s → x.Failed ⟨.cannotJoin type i, []⟩ s

def Makes (x : Stages σ) (host : Host σ) : Prop :=
  ∀ t, Ends x.Start (host.newTable t) (fun _ => x.Working) x.Failed

/-- a function may refuse each of its arguments, counted from one -/
def Refuses (x : Stages σ) (function : String) (args : List Value) : Prop :=
  ∀ position expected, position ≠ 0 → x.Refusal (mismatch function args position expected)

namespace Of

variable {x : Stages σ} {host : Host σ} {Q : α → σ → Prop} {c d : Collection}

/-! ## refusals -/

theorem refused (h : x.Of host) {fault : Fault} (hfault : x.Refusal fault) :
    Ends x.Ready (fail fault : Action σ α) Q x.Failed :=
  Ends.fail fun s hs => h.refuse fault s hfault hs

/-- after the checks, or after the work -/
theorem enter (h : x.Of host) {y : Action σ α} (hy : Ends x.Working y Q x.Failed) :
    Ends x.Ready y Q x.Failed := hy.mono h.working (fun _ _ => id) fun _ _ => id

theorem entry (h : x.Of host) {v : Option Value} {position : Nat} {function : String}
    {required : Capabilities} (hv : ∀ w, v = some w → x.Operand w)
    (hrefusal : x.Refusal (.wrongType position function "table" (v.map Value.typeName))) :
    Ends x.Start (host.collectionWithBorder v position function required)
      (fun p s => x.Checked p.1 ∧ x.Ready s) x.Failed := by
  apply Ends.bind (h.check v position function _ hv hrefusal)
  intro c
  apply Ends.of_and
  intro hc
  exact Ends.bind (h.border c hc) fun border => Ends.pure fun _ hs => ⟨hc, hs⟩

theorem withBorder (h : x.Of host) {v : Option Value} {position : Nat} {function : String}
    {required : Capabilities} (hv : ∀ w, v = some w → x.Operand w)
    (hrefusal : x.Refusal (.wrongType position function "table" (v.map Value.typeName)))
    {next : Collection × Int64 → Action σ α}
    (hnext : ∀ c border, x.Checked c → Ends x.Ready (next (c, border)) Q x.Failed) :
    Ends x.Start (host.collectionWithBorder v position function required >>= next) Q x.Failed :=
  (h.entry hv hrefusal).bind fun p => Ends.of_and fun hc => hnext p.1 p.2 hc

section
variable {X : σ → Prop} {function : String} {args : List Value} {position : Nat}

theorem checkInteger (h : x.Of host) (hX : ∀ s, X s → x.Ready s)
    (hargs : x.Refuses function args) (hposition : position ≠ 0) :
    Ends X (ScriptTables.checkInteger function args position) (fun _ => X) x.Failed := by
  unfold ScriptTables.checkInteger
  split
  · exact Ends.pure fun _ hs => hs
  · refine Ends.fail fun s hs => h.refuse _ s ?_ (hX s hs)
    unfold integerFault
    split
    · exact h.other _ nofun
    · exact hargs position "number" hposition

theorem optionalInteger (h : x.Of host) (hX : ∀ s, X s → x.Ready s)
    (hargs : x.Refuses function args) (hposition : position ≠ 0) :
    Ends X (ScriptTables.optionalInteger function args position) (fun _ => X) x.Failed := by
  unfold ScriptTables.optionalInteger
  split
  · exact Ends.pure fun _ hs => hs
  · exact Ends.bind (h.checkInteger hX hargs hposition) fun n => Ends.pure fun _ hs => hs

theorem optionalText (h : x.Of host) (hX : ∀ s, X s → x.Ready s)
    (hargs : x.Refuses function args) (hposition : position ≠ 0) :
    Ends X (ScriptTables.optionalText function args position) (fun _ => X) x.Failed := by
  unfold ScriptTables.optionalText
  split
  · exact Ends.pure fun _ hs => hs
  · split
    · exact Ends.pure fun _ hs => hs
    · exact Ends.fail fun s hs => h.refuse _ s (hargs position "string" hposition) (hX s hs)

end

/-! ## inserting and removing -/

theorem shiftUp (h : x.Of host) (hset : x.Writes host) (hc : x.Checked c) (n : Nat) :
    ∀ top, Ends x.Working (c.shiftUp host n top) (fun _ => x.Working) x.Failed := by
  induction n with
  | zero => exact fun top => Ends.pure fun _ hs => hs
  | succ n ih =>
    intro top
    apply Ends.bind (h.get c hc (top - 1))
    intro v
    exact Ends.bind (hset c hc top v) fun _ => ih (top - 1)

theorem insertAt (h : x.Of host) (hset : x.Writes host) (hc : x.Checked c) (border : Int64)
    (position : Option Int64) (v : Value) :
    Ends x.Ready (c.insertAt host border position v) (fun _ => x.Working) x.Failed := by
  unfold Collection.insertAt
  cases position with
  | none => exact h.enter (hset c hc _ v)
  | some position =>
    show Ends _ (ite _ _ _) _ _
    split
    · exact h.refused (h.other _ nofun)
    · exact h.enter (Ends.bind (h.shiftUp hset hc _ _) fun _ => hset c hc _ v)

theorem insert (h : x.Of host) (hset : x.Writes host) {list : Value} (hlist : x.Operand list)
    (hrefusal : x.Refusal (.wrongType 1 "insert" "table" (some list.typeName)))
    (position : Option Int64) (v : Value) :
    Ends x.Start (host.insert list position v) (fun _ => x.Working) x.Failed := by
  apply h.withBorder (fun w hw => Option.some.inj hw ▸ hlist) hrefusal
  intro c border hc
  exact h.insertAt hset hc border position v

theorem shiftDown (h : x.Of host) (hset : x.Writes host) (hc : x.Checked c) (n : Nat) :
    ∀ bottom, Ends x.Working (c.shiftDown host n bottom) (fun _ => x.Working) x.Failed := by
  induction n with
  | zero => exact fun bottom => Ends.pure fun _ hs => hs
  | succ n ih =>
    intro bottom
    apply Ends.bind (h.get c hc (bottom + 1))
    intro v
    exact Ends.bind (hset c hc bottom v) fun _ => ih (bottom + 1)

/-- where nothing is removed no work was begun -/
theorem removeAt (h : x.Of host) (hset : x.Writes host) (hc : x.Checked c) (border : Int64)
    (position : Option Int64) :
    Ends x.Ready (c.removeAt host border position)
      (fun removed s => x.Working s ∧ (removed = none → x.Ready s)) x.Failed := by
  unfold Collection.removeAt
  show Ends _ (ite _ _ _) _ _
  split
  · apply h.enter
    apply Ends.bind (h.get c hc _)
    intro removed
    apply Ends.bind (h.shiftDown hset hc _ _)
    intro _
    exact Ends.bind (hset c hc _ _) fun _ => Ends.pure fun s hs => ⟨hs, nofun⟩
  · exact Ends.pure fun s hs => ⟨h.working s hs, fun _ => hs⟩

theorem remove (h : x.Of host) (hset : x.Writes host) {list : Value} (hlist : x.Operand list)
    (hrefusal : x.Refusal (.wrongType 1 "remove" "table" (some list.typeName)))
    (position : Option Int64) :
    Ends x.Start (host.remove list position)
      (fun removed s => x.Working s ∧ (removed = none → x.Ready s)) x.Failed := by
  apply h.withBorder (fun w hw => Option.some.inj hw ▸ hlist) hrefusal
  intro c border hc
  exact h.removeAt hset hc border position

/-! ## moving -/

theorem copyUpward (h : x.Of host) (hset : x.Writes host) (hc : x.Checked c) (hd : x.Checked d)
    (n : Nat) :
    ∀ i j, Ends x.Working (Collection.copyUpward host c d n i j) (fun _ => x.Working)
      x.Failed := by
  induction n with
  | zero => exact fun i j => Ends.pure fun _ hs => hs
  | succ n ih =>
    intro i j
    apply Ends.bind (h.get c hc i)
    intro v
    exact Ends.bind (hset d hd j v) fun _ => ih (i + 1) (j + 1)

theorem copyDownward (h : x.Of host) (hset : x.Writes host) (hc : x.Checked c) (hd : x.Checked d)
    (i j : Int) (n : Nat) :
    Ends x.Working (Collection.copyDownward host c d i j n) (fun _ => x.Working) x.Failed := by
  induction n with
  | zero => exact Ends.pure fun _ hs => hs
  | succ n ih =>
    apply Ends.bind (h.get c hc (i + n))
    intro v
    exact Ends.bind (hset d hd (j + n) v) fun _ => ih

end Of

end

end Stages

theorem MoveRange.fault?_ne_wrongType {r : MoveRange} {fault : Fault} (h : r.fault? = some fault)
    (position : Nat) (function expected : String) (got : Option TypeName) :
    fault ≠ .wrongType position function expected got := by
  unfold MoveRange.fault? at h
  split at h
  · cases h
    nofun
  · split at h
    · cases h
      nofun
    · cases h

namespace Stages.Of

section
variable {σ α : Type} {x : Stages σ} {host : Host σ} {Q : α → σ → Prop} {c d : Collection}

theorem moveBetween (h : x.Of host) (hset : x.Writes host) (hc : x.Checked c) (hd : x.Checked d)
    (r : MoveRange) :
    Ends x.Start (host.moveBetween c r d) (fun _ => x.Working) x.Failed := by
  unfold Host.moveBetween
  split
  · exact Ends.pure fun s hs => h.working s (h.ready s hs)
  · refine Ends.mono ?_ h.ready (fun _ _ => id) fun _ _ => id
    split
    · rename_i fault hfault
      exact h.refused (h.other fault (MoveRange.fault?_ne_wrongType hfault))
    · show Ends _ (ite _ _ _) _ _
      split
      · exact h.enter (h.copyUpward hset hc hd _ _ _)
      · exact h.enter (h.copyDownward hset hc hd _ _ _)

theorem move (h : x.Of host) (hset : x.Writes host) (hrefusal : ∀ fault, x.Refusal fault)
    {source : Value} (hsource : x.Operand source) (r : MoveRange) {target : Option Value}
    (htarget : ∀ v, target = some v → x.Operand v) :
    Ends x.Start (host.move source r target) (fun _ => x.Working) x.Failed := by
  have hlist : ∀ w, some source = some w → x.Operand w := fun w hw => Option.some.inj hw ▸ hsource
  have hmove : ∀ c d, x.Checked c → x.Checked d →
      Ends x.Start (do host.moveBetween c r d; pure d.value) (fun _ => x.Working) x.Failed :=
    fun c d hc hd => Ends.bind (h.moveBetween hset hc hd r) fun _ => Ends.pure fun _ hs => hs
  apply Ends.bind (h.check _ _ _ _ hlist (hrefusal _))
  intro c
  apply Ends.of_and
  intro hc
  cases target with
  | none =>
    exact Ends.bind (h.check _ _ _ _ hlist (hrefusal _)) fun d =>
      Ends.of_and fun hd => hmove c d hc hd
  | some target =>
    exact Ends.bind (h.check _ _ _ _ htarget (hrefusal _)) fun d =>
      Ends.of_and fun hd => hmove c d hc hd

/-! ## between lists and values -/

theorem gather (h : x.Of host) {f : Int → Action σ α}
    (hf : ∀ i, Ends x.Working (f i) (fun _ => x.Working) x.Failed) (n : Nat) (i : Int) :
    Ends x.Ready (ScriptTables.gather f n i) (fun _ => x.Working) x.Failed := by
  refine h.enter ?_
  induction n generalizing i with
  | zero => exact Ends.pure fun _ hs => hs
  | succ n ih =>
    rw [gather_succ]
    exact Ends.bind (hf i) fun a => Ends.bind (ih (i + 1)) fun more => Ends.pure fun _ hs => hs

theorem join (h : x.Of host) (hjoins : x.Joins) (hc : x.Checked c) (border : Int64)
    (separator : String) (first last : Option Int64) :
    Ends x.Ready (c.join host border separator first last) (fun _ => x.Working) x.Failed := by
  have htext : ∀ i, Ends x.Working (c.textAt host i) (fun _ => x.Working) x.Failed := by
    intro i
    apply Ends.bind (h.get c hc i)
    intro v
    split
    · exact Ends.pure fun _ hs => hs
    · exact Ends.fail fun s hs => hjoins v.typeName i s hs
  exact Ends.bind (h.gather htext _ _) fun texts => Ends.pure fun _ hs => hs

theorem concat (h : x.Of host) (hjoins : x.Joins) {list : Value} (hlist : x.Operand list)
    (hrefusal : x.Refusal (.wrongType 1 "concat" "table" (some list.typeName)))
    (separator : String) (first last : Option Int64) :
    Ends x.Start (host.concat list separator first last) (fun _ => x.Working) x.Failed := by
  apply h.withBorder (fun w hw => Option.some.inj hw ▸ hlist) hrefusal
  intro c border hc
  exact h.join hjoins hc border separator first last

theorem unpackEntry (h : x.Of host) {list : Value} (hlist : x.Operand list)
    (hrefusal : x.Refusal (.wrongType 1 "unpack" "table" (some list.typeName)))
    (last : Option Int64) :
    Ends x.Start (host.unpackEntry list last) (fun p s => x.Checked p.1 ∧ x.Ready s) x.Failed := by
  have hoperand : ∀ w, some list = some w → x.Operand w := fun w hw => Option.some.inj hw ▸ hlist
  cases last with
  | some last =>
    refine Ends.bind (h.check _ _ _ _ hoperand hrefusal) fun c => ?_
    exact Ends.pure fun s hs => ⟨hs.1, h.ready s hs.2⟩
  | none => exact h.entry hoperand hrefusal

theorem unpack (h : x.Of host) {list : Value} (hlist : x.Operand list)
    (hrefusal : x.Refusal (.wrongType 1 "unpack" "table" (some list.typeName)))
    (first last : Option Int64) :
    Ends x.Start (host.unpack list first last) (fun _ => x.Working) x.Failed := by
  have hcount : ∀ lo hi, Ends x.Ready (host.resultCount lo hi) (fun _ => x.Ready) x.Failed := by
    intro lo hi
    unfold Host.resultCount
    split
    · exact h.refused (h.other _ nofun)
    · refine Ends.bind (h.fits _) fun fits => ?_
      cases fits
      · exact h.refused (h.other _ nofun)
      · exact Ends.pure fun _ hs => hs
  have hstart : Ends x.Start (host.unpackStart list (first.getD 1) last)
      (fun p s => x.Checked p.1 ∧ x.Ready s) x.Failed := by
    refine Ends.bind (h.unpackEntry hlist hrefusal last) fun p => Ends.of_and fun hc => ?_
    exact Ends.bind (hcount _ p.2) fun n => Ends.pure fun _ hs => ⟨hc, hs⟩
  rw [Host.unpack_eq]
  exact Ends.bind hstart fun p => Ends.of_and fun hc => h.gather (h.get p.1 hc) _ _

/-! ## sorting -/

theorem sortElements (h : x.Of host) (hset : x.Writes host) {comparator : Option Value}
    (hasks : x.Asks host comparator) (hc : x.Checked c) (border : Int64) :
    Ends x.Ready (c.sortElements host border comparator) (fun _ => x.Working) x.Failed := by
  unfold Collection.sortElements
  split
  · exact Ends.pure h.working
  · split
    · exact h.refused (h.other _ nofun)
    · have hslots : (c.slots host comparator).Confined border.toInt.toNat x.Working
          (fun _ => True) x.Failed := by
        refine ⟨fun i _ _ => ?_, fun i j _ _ _ _ => ?_, fun a b _ _ => hasks a b⟩
        · exact (h.get c hc i).mono (fun _ => id) (fun _ _ hs => ⟨trivial, hs⟩) fun _ _ => id
        · refine Ends.bind (h.get c hc i) fun a => Ends.bind (h.get c hc j) fun b => ?_
          exact Ends.bind (hset c hc i b) fun _ => hset c hc j a
      exact h.enter (hslots.sortRange _ (Nat.le_refl 1) (Nat.le_refl _))

theorem sort (h : x.Of host) (hset : x.Writes host) (hrefusal : ∀ fault, x.Refusal fault)
    {list comparator : Value} (hlist : x.Operand list)
    (hasks : ∀ q, comparator? comparator = some q → x.Asks host q) :
    Ends x.Start (host.sort list comparator) (fun _ => x.Working) x.Failed := by
  apply h.withBorder (fun w hw => Option.some.inj hw ▸ hlist) (hrefusal _)
  intro c border hc
  cases comparator with
  | nil => exact h.sortElements hset (hasks _ rfl) hc border
  | function f => exact h.sortElements hset (hasks _ rfl) hc border
  | _ => exact h.refused (hrefusal _)

end

end Stages.Of

/-! ## the functions of the library -/

/-- the arguments that a function checks: a list to unpack that was not supplied is `nil` -/
def LibraryFunction.supplied : LibraryFunction → List Value → List Value
  | .unpack, [] => [.nil]
  | _, args => args

theorem LibraryFunction.supplied_of_ne {f : LibraryFunction} {args : List Value}
    (h : f = .unpack → args ≠ []) : f.supplied args = args := by
  cases f with
  | unpack =>
    cases args with
    | nil => exact absurd rfl (h rfl)
    | cons v args => rfl
  | _ => rfl

theorem Host.library_supplied {σ : Type} (host : Host σ) (f : LibraryFunction)
    (args : List Value) : host.library f (f.supplied args) = host.library f args := by
  cases f with
  | unpack =>
    cases args with
    | nil => rfl
    | cons v args => rfl
  | _ => rfl

namespace Stages.Of

section
variable {σ : Type} {x : Stages σ} {host : Host σ} {args : List Value}

theorem insertFunction (h : x.Of host) (hset : x.Writes host)
    (hlist : ∀ v, argument? args 1 = some v → x.Operand v) (hargs : x.Refuses "insert" args) :
    Ends x.Start (host.insertFunction args) (fun _ => x.Working) x.Failed := by
  apply h.withBorder hlist (hargs 1 "table" Nat.one_ne_zero)
  intro c border hc
  match args, hargs with
  | [], _ => exact h.refused (h.other _ nofun)
  | [_], _ => exact h.refused (h.other _ nofun)
  | [_, v], _ =>
    exact Ends.bind (h.insertAt hset hc border none v) fun _ => Ends.pure fun _ hs => hs
  | [_, _, v], hargs =>
    apply Ends.bind (h.checkInteger (fun _ => id) hargs (by decide))
    intro position
    exact Ends.bind (h.insertAt hset hc border _ v) fun _ => Ends.pure fun _ hs => hs
  | _ :: _ :: _ :: _ :: _, _ => exact h.refused (h.other _ nofun)

theorem removeFunction (h : x.Of host) (hset : x.Writes host)
    (hlist : ∀ v, argument? args 1 = some v → x.Operand v) (hargs : x.Refuses "remove" args) :
    Ends x.Start (host.removeFunction args)
      (fun vs s => x.Working s ∧ (vs = [] → x.Ready s)) x.Failed := by
  apply h.withBorder hlist (hargs 1 "table" Nat.one_ne_zero)
  intro c border hc
  apply Ends.bind (h.optionalInteger (fun _ => id) hargs (by decide))
  intro position
  apply Ends.bind (h.removeAt hset hc border position)
  intro removed
  refine Ends.pure fun s hs => ⟨hs.1, fun hnone => hs.2 ?_⟩
  cases removed with
  | none => rfl
  | some v => cases hnone

theorem moveFunction (h : x.Of host) (hset : x.Writes host)
    (hlists : ∀ i ∈ [1, 5], ∀ v, argument? args i = some v → x.Operand v)
    (hargs : x.Refuses "move" args) :
    Ends x.Start (host.moveFunction args) (fun _ => x.Working) x.Failed := by
  have hinteger : ∀ position, position ≠ 0 →
      Ends x.Start (ScriptTables.checkInteger "move" args position) (fun _ => x.Start) x.Failed :=
    fun position hposition => h.checkInteger h.ready hargs hposition
  have hcheck : ∀ place, place ∈ [1, 5] → ∀ required, Ends x.Start
      (host.checkCollection (argument? args place) place "move" required)
      (fun c s => x.Checked c ∧ x.Start s) x.Failed := by
    intro place hplace required
    have hne : place ≠ 0 := fun he => absurd (he ▸ hplace) (by decide)
    exact h.check _ place "move" required (hlists place hplace) (hargs place "table" hne)
  apply Ends.bind (hinteger 2 (by decide))
  intro first
  apply Ends.bind (hinteger 3 (by decide))
  intro last
  apply Ends.bind (hinteger 4 (by decide))
  intro destination
  apply Ends.bind (hcheck 1 (by decide) .reading)
  intro c
  apply Ends.of_and
  intro hc
  have hplace : (if isAbsent args 5 then 1 else 5) ∈ [1, 5] := by split <;> decide
  apply Ends.bind (hcheck _ hplace .writing)
  intro d
  apply Ends.of_and
  intro hd
  exact Ends.bind (h.moveBetween hset hc hd _) fun _ => Ends.pure fun _ hs => hs

theorem concatFunction (h : x.Of host) (hjoins : x.Joins)
    (hlist : ∀ v, argument? args 1 = some v → x.Operand v) (hargs : x.Refuses "concat" args) :
    Ends x.Start (host.concatFunction args) (fun _ => x.Working) x.Failed := by
  apply h.withBorder hlist (hargs 1 "table" Nat.one_ne_zero)
  intro c border hc
  apply Ends.bind (h.optionalText (fun _ => id) hargs (by decide))
  intro separator
  apply Ends.bind (h.optionalInteger (fun _ => id) hargs (by decide))
  intro first
  apply Ends.bind (h.optionalInteger (fun _ => id) hargs (by decide))
  intro last
  exact Ends.bind (h.join hjoins hc border _ first last) fun _ => Ends.pure fun _ hs => hs

theorem unpackFunction (h : x.Of host) {list : Value}
    (hlist : x.Operand list) (hargs : x.Refuses "unpack" (list :: args)) :
    Ends x.Start (host.unpackFunction (list :: args)) (fun _ => x.Working) x.Failed := by
  apply Ends.bind (h.optionalInteger h.ready hargs (by decide))
  intro first
  apply Ends.bind (h.optionalInteger h.ready hargs (by decide))
  intro last
  exact h.unpack hlist (hargs 1 "table" Nat.one_ne_zero) first last

theorem sortFunction (h : x.Of host) (hset : x.Writes host)
    (hlist : ∀ v, argument? args 1 = some v → x.Operand v) (hargs : x.Refuses "sort" args)
    (hasks : ∀ q, comparator? (argumentOrNil args 2) = some q → x.Asks host q) :
    Ends x.Start (host.sortFunction args) (fun _ => x.Working) x.Failed := by
  apply h.withBorder hlist (hargs 1 "table" Nat.one_ne_zero)
  intro c border hc
  cases hq : comparator? (argumentOrNil args 2) with
  | none =>
    show Ends _ (optionalFunction "sort" args 2 >>= _) _ _
    rw [optionalFunction_of_none hq]
    exact h.refused (hargs 2 "function" (by decide))
  | some q =>
    show Ends _ (optionalFunction "sort" args 2 >>= _) _ _
    rw [optionalFunction_of_some hq]
    show Ends _ (do c.sortElements host border q; pure []) _ _
    exact Ends.bind (h.sortElements hset (hasks q hq) hc border) fun _ => Ends.pure fun _ hs => hs

/-- **The stages of every function of the library.**  Where `remove` removes nothing it began no
work. -/
theorem library (h : x.Of host) (f : LibraryFunction) (args : List Value)
    (hlists : ∀ i ∈ f.places, ∀ v, argument? (f.supplied args) i = some v → x.Operand v)
    (hargs : x.Refuses f.name (f.supplied args))
    (hwrites : f ≠ .concat → f ≠ .unpack → x.Writes host)
    (hasks : f = .sort → ∀ q, comparator? (argumentOrNil args 2) = some q → x.Asks host q)
    (hjoins : f = .concat → x.Joins) (hmakes : f = .pack → x.Makes host) :
    Ends x.Start (host.library f args)
      (fun vs s => x.Working s ∧ (f = .remove → vs = [] → x.Ready s)) x.Failed := by
  have hends : ∀ {y : Action σ (List Value)}, f ≠ .remove →
      Ends x.Start y (fun _ => x.Working) x.Failed →
      Ends x.Start y (fun vs s => x.Working s ∧ (f = .remove → vs = [] → x.Ready s)) x.Failed :=
    fun hne hy => hy.mono (fun _ => id) (fun _ _ hs => ⟨hs, fun he => absurd he hne⟩) fun _ _ => id
  cases f with
  | concat =>
    exact hends nofun (h.concatFunction (hjoins rfl) (hlists 1 (by decide)) hargs)
  | insert =>
    exact hends nofun (h.insertFunction (hwrites nofun nofun) (hlists 1 (by decide)) hargs)
  | move => exact hends nofun (h.moveFunction (hwrites nofun nofun) hlists hargs)
  | pack => exact hends nofun (Ends.bind (hmakes rfl _) fun _ => Ends.pure fun _ hs => hs)
  | remove =>
    exact (h.removeFunction (hwrites nofun nofun) (hlists 1 (by decide)) hargs).mono
      (fun _ => id) (fun _ _ hs => ⟨hs.1, fun _ => hs.2⟩) fun _ _ => id
  | sort =>
    exact hends nofun
      (h.sortFunction (hwrites nofun nofun) (hlists 1 (by decide)) hargs (hasks rfl))
  | unpack =>
    apply hends nofun
    rw [← host.library_supplied]
    cases args with
    | nil => exact h.unpackFunction (hlists 1 (by decide) .nil rfl) hargs
    | cons v args => exact h.unpackFunction (hlists 1 (by decide) v rfl) hargs

end

end Stages.Of

/-! ## any call -/

namespace ListCall

def function : ListCall → LibraryFunction
  | .insert _ _ _ => .insert
  | .remove _ _ => .remove
  | .move _ _ _ => .move
  | .concat _ _ _ _ => .concat
  | .unpack _ _ _ => .unpack
  | .sort _ _ => .sort
  | .positional f _ => f

/-- what a call is given as lists, with a value in the places of the list -/
def lists (list : Value) : ListCall → List Value
  | .insert operand _ _ => [operand.fill list]
  | .remove operand _ => [operand.fill list]
  | .move source _ target => source.fill list :: (target.map (Operand.fill list)).toList
  | .concat operand _ _ _ => [operand.fill list]
  | .unpack operand _ _ => [operand.fill list]
  | .sort operand _ => [operand.fill list]
  | .positional f args => f.places.filterMap (argument? (f.supplied (args.map (Operand.fill list))))

def comparator (list : Value) : ListCall → Value
  | .sort _ comparator => comparator
  | .positional .sort args => argumentOrNil (args.map (Operand.fill list)) 2
  | _ => .nil

end ListCall

/-- **The stages of every call, be it on values or on positional arguments.** -/
theorem Stages.Of.listCall {σ : Type} {x : Stages σ} {host : Host σ} (h : x.Of host)
    (hrefusal : ∀ fault, x.Refusal fault) {c : ListCall} {list : Value}
    (hlists : ∀ v ∈ c.lists list, x.Operand v)
    (hwrites : c.function ≠ .concat → c.function ≠ .unpack → x.Writes host)
    (hasks : c.function = .sort →
      ∀ q, comparator? (c.comparator list) = some q → x.Asks host q)
    (hjoins : c.function = .concat → x.Joins) (hmakes : c.function = .pack → x.Makes host) :
    Ends x.Start (c.run host list)
      (fun vs s => x.Working s ∧ (c.function = .remove → vs = [] → x.Ready s)) x.Failed := by
  have hends : ∀ {α : Type} {y : Action σ α} {result : α → List Value}, c.function ≠ .remove →
      Ends x.Start y (fun _ => x.Working) x.Failed → Ends x.Start (do let a ← y; pure (result a))
        (fun vs s => x.Working s ∧ (c.function = .remove → vs = [] → x.Ready s)) x.Failed :=
    fun hne hy => Ends.bind hy fun _ => Ends.pure fun _ hs => ⟨hs, fun he => absurd he hne⟩
  cases c with
  | insert operand position v =>
    exact hends nofun
      (h.insert (hwrites nofun nofun) (hlists _ List.mem_cons_self) (hrefusal _) position v)
  | remove operand position =>
    apply Ends.bind (h.remove (hwrites nofun nofun) (hlists _ List.mem_cons_self) (hrefusal _) _)
    intro removed
    refine Ends.pure fun s hs => ⟨hs.1, fun _ hnone => hs.2 ?_⟩
    cases removed with
    | none => rfl
    | some v => cases hnone
  | move source range target =>
    apply hends nofun
    apply h.move (hwrites nofun nofun) hrefusal (hlists _ List.mem_cons_self) range
    intro v hv
    exact hlists v (List.mem_cons_of_mem _ (Option.mem_toList.mpr hv))
  | concat operand separator first last =>
    exact hends nofun (h.concat (hjoins rfl) (hlists _ List.mem_cons_self) (hrefusal _) _ _ _)
  | unpack operand first last =>
    exact (h.unpack (hlists _ List.mem_cons_self) (hrefusal _) first last).mono (fun _ => id)
      (fun _ _ hs => ⟨hs, nofun⟩) fun _ _ => id
  | sort operand comparator =>
    exact hends nofun
      (h.sort (hwrites nofun nofun) hrefusal (hlists _ List.mem_cons_self) (hasks rfl))
  | positional f args =>
    refine h.library f _ (fun i hi v hv => ?_) (fun _ _ _ => hrefusal _) hwrites (fun hf => ?_)
      hjoins hmakes
    · exact hlists v (List.mem_filterMap.mpr ⟨i, hi, hv⟩)
    · subst hf
      exact hasks rfl

end ScriptTables
