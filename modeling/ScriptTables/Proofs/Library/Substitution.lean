import ScriptTables.Proofs.Library.Locality
import ScriptTables.Proofs.Script.Forwarding
import ScriptTables.Proofs.Trace

/-!
# The object in place of the list

Calls of the library are run twice: once on a list, and once with an object in its place that stands
in for the list.

* `ListCall`                   a call with places for the list;
* `ListCall.inStep`            one call, on two machines that differ as the two runs do;
* `StandIn.indistinguishable`  a run of calls, which may fail and have any comparators that keep off
                               the list and what is behind the object.
-/

namespace ScriptTables

/-! ## calls -/

inductive Operand where
  | list
  | value (v : Value)

def Operand.fill (list : Value) : Operand → Value
  | .list => list
  | .value v => v

inductive ListCall where
  | insert (operand : Operand) (position : Option Int64) (v : Value)
  | remove (operand : Operand) (position : Option Int64)
  | move (source : Operand) (range : MoveRange) (target : Option Operand)
  | concat (operand : Operand) (separator : String) (first last : Option Int64)
  | unpack (operand : Operand) (first last : Option Int64)
  | sort (operand : Operand) (comparator : Value)
  /-- a function of the library on positional arguments, be they too few or of wrong types -/
  | positional (f : LibraryFunction) (args : List Operand)

namespace ListCall

def run {σ : Type} (host : Host σ) (list : Value) : ListCall → Action σ (List Value)
  | .insert operand position v => do
    host.insert (operand.fill list) position v
    pure []
  | .remove operand position => do
    let removed ← host.remove (operand.fill list) position
    pure removed.toList
  | .move source range target => do
    let v ← host.move (source.fill list) range (target.map (Operand.fill list))
    pure [v]
  | .concat operand separator first last => do
    let joined ← host.concat (operand.fill list) separator first last
    pure [.string joined]
  | .unpack operand first last => host.unpack (operand.fill list) first last
  | .sort operand comparator => do
    host.sort (operand.fill list) comparator
    pure []
  | .positional f args => host.library f (args.map (Operand.fill list))

def comparator? : ListCall → Option (Option Value)
  | .sort _ comparator => ScriptTables.comparator? comparator
  | .positional .sort args =>
    ScriptTables.comparator? (argumentOrNil (args.map (Operand.fill .nil)) 2)
  | _ => none

end ListCall

theorem Host.Matching.listCall {σ τ : Type} {A : Host σ} {B : Host τ} {R : σ → τ → Prop}
    (h : A.Matching B R) (list : Value) (c : ListCall) :
    InStep R (· = ·) (c.run A list) (c.run B list) := by
  cases c with
  | insert operand position v =>
    exact (h.companions.insert rfl position trivial).bind_eq fun _ => Alike.pure rfl
  | remove operand position =>
    exact (h.companions.remove rfl position).bind_same fun _ _ => Alike.pure rfl
  | move source range target => exact (h.move _ range _).bind_eq fun _ => Alike.pure rfl
  | concat operand separator first last =>
    exact (h.companions.concat rfl separator first last).bind_eq fun _ => Alike.pure rfl
  | unpack operand first last =>
    exact (h.companions.unpack rfl first last).mono fun _ _ hvs => hvs.1
  | sort operand comparator => exact (h.sort _ comparator).bind_eq fun _ => Alike.pure rfl
  | positional f args => exact h.library f _

/-- an operand that is checked to be a list: the list, another table, or a value that is refused -/
def Operand.Proper (others : TableId → Prop) : Operand → Prop
  | .list => True
  | .value v => (∃ id, others id ∧ v = .table id) ∨ v.isBare = true

/-- the list stands where lists are expected, and what is inserted is in `V` -/
def ListCall.Proper (others : TableId → Prop) (V : Value → Prop) : ListCall → Prop
  | .insert operand _ v => operand.Proper others ∧ V v
  | .remove operand _ => operand.Proper others
  | .move source _ target => source.Proper others ∧ ∀ operand ∈ target, operand.Proper others
  | .concat operand _ _ _ => operand.Proper others
  | .unpack operand _ _ => operand.Proper others
  | .sort operand _ => operand.Proper others
  | .positional f args => f ≠ .pack ∧
      (∀ i operand, args[i]? = some operand →
        if i + 1 ∈ f.places then operand.Proper others else operand ≠ .list) ∧
      (f = .insert → ∀ v, inserted? args = some (.value v) → V v)

/-! ## one call -/

section
variable {x : StandIn} {others : TableId → Prop}

theorem Operand.Proper.operands {operand : Operand} (h : operand.Proper others) :
    x.Operands others (operand.fill (.table x.list)) (operand.fill (.userdata x.object)) := by
  cases operand with
  | list => exact .list
  | value v =>
    rcases h with ⟨id, hid, rfl⟩ | hbare
    · exact .other hid
    · exact .bare hbare

theorem argument?_fill {args : List Operand} {i : Nat}
    (h : ∀ operand, args[i]? = some operand → operand ≠ .list) (list list' : Value) :
    argument? (args.map (Operand.fill list)) (i + 1)
      = argument? (args.map (Operand.fill list')) (i + 1) := by
  rw [argument?, argument?, List.getElem?_map, List.getElem?_map]
  cases hi : args[i]? with
  | none => rfl
  | some operand =>
    cases operand with
    | list => exact absurd rfl (h _ hi)
    | value v => rfl

theorem exists_inserted {args : List Operand} {list v : Value}
    (h : inserted? (args.map (Operand.fill list)) = some v) :
    ∃ i operand, args[i + 1]? = some operand ∧ inserted? args = some operand ∧
      v = operand.fill list := by
  match args, h with
  | [_, operand], h => exact ⟨0, operand, rfl, rfl, (Option.some.inj h).symm⟩
  | [_, _, operand], h => exact ⟨1, operand, rfl, rfl, (Option.some.inj h).symm⟩

theorem arguments_fill {args : List Operand} {places : List Nat}
    (h : ∀ i operand, args[i]? = some operand →
      if i + 1 ∈ places then operand.Proper others else operand ≠ .list) :
    Arguments (x.Operands others) places (args.map (Operand.fill (.table x.list)))
      (args.map (Operand.fill (.userdata x.object))) where
  length := by rw [List.length_map, List.length_map]
  operand := by
    intro i hi v w hv hw
    cases i with
    | zero => cases hv
    | succ i =>
      rw [argument?, List.getElem?_map] at hv hw
      cases harg : args[i]? with
      | none =>
        rw [harg] at hv
        cases hv
      | some operand =>
        rw [harg] at hv hw
        have hproper := h i operand harg
        rw [if_pos hi] at hproper
        cases hv
        cases hw
        exact hproper.operands
  same := by
    intro i hi
    cases i with
    | zero => rfl
    | succ i =>
      refine argument?_fill (fun operand harg => ?_) _ _
      have hproper := h i operand harg
      rw [if_neg hi] at hproper
      exact hproper

variable {V : Value → Prop} {C : Collection → Collection → Prop} {σ τ : Type} {A : Host σ}
  {B : Host τ} {R : σ → τ → Prop}

open Host.Companions in
theorem ListCall.inStep (h : A.Companions B R V (x.Operands others) C) {c : ListCall}
    (hc : c.Proper others V) (hasks : ∀ q, c.comparator? = some q → Asks A B R V q) :
    InStep R (Results V C) (c.run A (.table x.list)) (c.run B (.userdata x.object)) := by
  cases c with
  | insert operand position v =>
    exact (h.insert hc.1.operands position hc.2).bind_eq fun _ => Alike.pure List.Forall₂.nil
  | remove operand position =>
    refine (h.remove hc.operands position).bind_same fun removed hremoved => ?_
    exact Alike.pure (Results.of_elements ⟨rfl, fun v hv => hremoved v (Option.mem_toList.mp hv)⟩)
  | move source range target =>
    have htarget : (target.map (Operand.fill (.table x.list)) = none ∧
        target.map (Operand.fill (.userdata x.object)) = none) ∨
        ∃ v w, target.map (Operand.fill (.table x.list)) = some v ∧
          target.map (Operand.fill (.userdata x.object)) = some w ∧ x.Operands others v w := by
      cases target with
      | none => exact Or.inl ⟨rfl, rfl⟩
      | some operand => exact Or.inr ⟨_, _, rfl, rfl, (hc.2 operand rfl).operands⟩
    refine Alike.bind (h.move hc.1.operands range htarget) fun v w hvw => ?_
    exact Alike.pure (List.Forall₂.cons (Or.inr hvw) List.Forall₂.nil)
  | concat operand separator first last =>
    exact (h.concat hc.operands separator first last).bind_eq fun joined =>
      Alike.pure (Results.text joined)
  | unpack operand first last =>
    exact (h.unpack hc.operands first last).mono fun _ _ => Results.of_elements
  | sort operand comparator =>
    exact (h.sort hc.operands hasks).bind_eq fun _ => Alike.pure List.Forall₂.nil
  | positional f args =>
    obtain ⟨hf, hplaces, hinserted⟩ := hc
    refine h.library hf (arguments_fill hplaces) (fun hinsert v hv => ?_) fun hsort q hq => ?_
    · subst hinsert
      obtain ⟨i, operand, harg, hoperand, rfl⟩ := exists_inserted hv
      have hvalue := hplaces (i + 1) operand harg
      rw [if_neg (show i + 1 + 1 ∉ LibraryFunction.insert.places from fun hi => by
        cases List.mem_singleton.mp hi)] at hvalue
      cases operand with
      | list => exact absurd rfl hvalue
      | value v => exact hinserted rfl v hoperand
    · subst hsort
      refine hasks q ?_
      have hsecond : ∀ operand, args[1]? = some operand → operand ≠ .list := fun operand harg => by
        have hplace := hplaces 1 operand harg
        rw [if_neg (show 1 + 1 ∉ LibraryFunction.sort.places by decide)] at hplace
        exact hplace
      show ScriptTables.comparator? (argumentOrNil (args.map (Operand.fill .nil)) 2) = some q
      rw [argumentOrNil, argument?_fill hsecond .nil (.table x.list)]
      exact hq

end

/-! ## runs -/

namespace StandIn

/-- the object stands for the list -/
def Stands (x : StandIn) (v w : Value) : Prop :=
  w = if v = .table x.list then .userdata x.object else v

variable {x : StandIn} {others : TableId → Prop} {V : Value → Prop}

open Host.Companions in
theorem stands_of_results (hV : ∀ v, V v → v ≠ .table x.list) {vs ws : List Value}
    (h : Results V (x.Counterparts others) vs ws) : List.Forall₂ x.Stands vs ws := by
  refine h.imp fun v w hvw => ?_
  unfold Stands
  rcases hvw with ⟨rfl, hv | ⟨text, rfl⟩⟩ | ⟨c, d, hcd, rfl, rfl⟩
  · rw [if_neg (hV v hv)]
  · rfl
  · cases hcd with
    | list => exact (if_pos rfl).symm
    | other hid hne => exact (if_neg fun he => hne (Value.table.inj he)).symm

open Host.Companions in
/-- The list on the one machine and the object on the other, in runs in which every question of a sort
is in step on twins.  `I` is anything else that the questions rely on and the lists do not disturb. -/
theorem trace_stands {call : Caller} {I : Machine → Machine → Prop} {calls : List ListCall}
    {s t : Machine} (hcall : x.Forwards call) (hnil : V .nil) (hV : ∀ v, V v → v ≠ .table x.list)
    (hcalls : ∀ c ∈ calls, c.Proper others V) (hI : x.Unaware others V I)
    (hasks : ∀ c ∈ calls, ∀ q, c.comparator? = some q →
      Asks (Machine.host call) (Machine.host call) (x.Related others V I) V q)
    (hst : x.Related others V I s t) :
    List.Forall₂ (fun a b => SameOutcome (List.Forall₂ x.Stands) a.1 b.1 ∧
        (b.2.heap.table x.hidden).SameRaw (a.2.heap.table x.list))
      (trace (fun c => attempt (c.run (Machine.host call) (.table x.list))) calls s)
      (trace (fun c => attempt (c.run (Machine.host call) (.userdata x.object))) calls t) := by
  refine trace_forall₂ (R := fun rest s t => x.Related others V I s t ∧ ∀ c ∈ rest, c ∈ calls)
    (fun c rest s t h => ?_) (fun _ _ _ h => h.1.2.contents) calls s t ⟨hst, fun _ hc => hc⟩
  obtain ⟨hst, hrest⟩ := h
  have hc := hrest c List.mem_cons_self
  have hstep := ListCall.inStep (companions hcall hnil hI) (hcalls c hc) (hasks c hc)
  have hafter := InStep.attempt (hstep.mono fun _ _ => stands_of_results hV) hst
  exact ⟨hafter.1, hafter.2, fun c hc => hrest c (List.mem_cons_of_mem _ hc)⟩

/-- **An object that stands in for a list behaves like the list.**  At the start the table behind the
object is a clone of the list (`m` is its own twin), and every comparator touches neither of the two
tables and leaves the object and the other lists in order; `J` is what else the comparators rely on and
writes to the lists do not disturb.  Then each call has the same results or the same error, with the
object for the list, and behind it the table holds what the list holds, also where the call failed. -/
theorem indistinguishable {call : Caller} {J : Machine → Prop} {calls : List ListCall} {m : Machine}
    (hcall : x.Forwards call) (hnil : V .nil) (hV : ∀ v, V v → v ≠ .table x.list)
    (hcalls : ∀ c ∈ calls, c.Proper others V) (hJ : x.Unaware others V fun s t => J s ∧ J t)
    (hcomparators : ∀ c ∈ calls, ∀ q, c.comparator? = some q → x.KeepsOff call others V J q)
    (hm : x.Twin others V m m) (hJm : J m) :
    List.Forall₂ (fun a b => SameOutcome (List.Forall₂ x.Stands) a.1 b.1 ∧
        (b.2.heap.table x.hidden).SameRaw (a.2.heap.table x.list))
      (trace (fun c => attempt (c.run (Machine.host call) (.table x.list))) calls m)
      (trace (fun c => attempt (c.run (Machine.host call) (.userdata x.object))) calls m) := by
  have hasks : ∀ c ∈ calls, ∀ q, c.comparator? = some q →
      Host.Companions.Asks (Machine.host call) (Machine.host call)
        (x.Related others V (x.BothSettled others V J)) V q :=
    fun c hc q hq => (hcomparators c hc q hq).asks
  have hstart : x.BothSettled others V J m m := ⟨⟨hm.settled, hJm⟩, hm.settled, hJm⟩
  exact trace_stands hcall hnil hV hcalls (unaware_bothSettled hJ) hasks ⟨hstart, hm⟩

/-! ## comparators that keep off the lists -/

theorem lessThan_bare (call : Caller) {a b : Value} (ha : a.isBare = true) (hb : b.isBare = true)
    (m : Machine) : (EvalM.lessThan call a b).run m
      = endWith ((a.less? b).elim (.error ⟨.cannotCompare a.typeName b.typeName, []⟩) .ok) m := by
  have hnone : ∀ v : Value, v.isBare = true → m.heap.metamethod v lessHook = .nil := by
    intro v hv
    cases v with
    | table id => cases hv
    | userdata id => cases hv
    | _ => rfl
  have hhandler : m.heap.lessHandler a b = .nil := by
    rw [Heap.lessHandler, hnone a ha, hnone b hb]
    rfl
  rw [EvalM.lessThan_of_nil hhandler]
  cases a.less? b <;> rfl

theorem keepsOff_order {call : Caller} {J : Machine → Prop} (hV : ∀ v, V v → v.isBare = true)
    (hrefill : ∀ m a b, J m → J (x.refill a b m))
    (hsession : ∀ m session, J m → J { m with session := session }) :
    x.KeepsOff call others V J none :=
  keepsOff_of_outcome _ (fun _ _ => id) hrefill hsession fun u v hu hv m _ _ =>
    lessThan_bare call (hV u hu) (hV v hv) m

/-- a function that answers by its arguments alone and changes the session at most -/
def Answers (call : Caller) (V : Value → Prop) (f : Hook)
    (answer : Value → Value → Except Error Value) (effect : Value → Value → Session → Session) :
    Prop :=
  ∀ m : Machine, f.In m.heap → m.depth < m.limits.maxCallDepth → ∀ a b, V a → V b →
    (EvalM.callFirst call (.function f.id) [a, b]).run m
      = endWith (answer a b) { m with session := effect a b m.session }

/-- what a sort makes of the outcome of its comparator -/
def askedBySort : Except Error Value → Except Error Bool
  | .ok v => .ok v.isTruthy
  | .error e => .error (e.wrap (.comparatorFailed e.fault.message))

theorem keepsOff_function {call : Caller} {f : Hook} {answer : Value → Value → Except Error Value}
    {effect : Value → Value → Session → Session} (h : Answers call V f answer effect) :
    x.KeepsOff call others V (fun m => f.In m.heap) (some (.function f.id)) := by
  refine keepsOff_of_outcome (fun u v => askedBySort (answer u v)) effect (fun _ _ _ hin => hin)
    (fun _ _ hin => hin) fun u v hu hv m hlevel hin => ?_
  have hrun : ((Machine.host call).call (.function f.id) [u, v]).run m = _ := h m hin hlevel u v hu hv
  unfold Host.precedes
  dsimp only
  rw [run_bind, run_tryCatch, hrun]
  cases answer u v <;> rfl

theorem unaware_function (f : Hook) :
    x.Unaware others V fun s t => f.In s.heap ∧ f.In t.heap :=
  fun _ _ hin _ _ _ _ _ _ _ => hin

/-! ## a list of three numbers -/

def numbers : Value → Prop
  | .nil => True
  | .integer _ => True
  | _ => False

/-- a comparator that logs what it is asked and sorts the greatest first -/
def descending : Hook where
  id := ⟨3⟩
  function :=
    { name := "descending"
      code := .script (.mk (.log [.single (.argument 0), .single (.argument 1)]) none ::
        finishWith (.binary .lessThan (.argument 1) (.argument 0))) }

def lesser (a b : Value) : Except Error Value :=
  match b.less? a with
  | some less => .ok (.boolean less)
  | none => .error ⟨.cannotCompare b.typeName a.typeName, []⟩

def logged (a b : Value) (s : Session) : Session :=
  { s with log := s.log.push [s.render {} a, s.render {} b] }

theorem answers_descending : Answers EvalM.call numbers descending lesser logged := by
  intro m hin hlevel a b ha hb
  rw [EvalM.callFirst, run_bind, call_script_run (code_of_in hin rfl) hlevel]
  cases a with
  | nil => cases b <;> first | exact hb.elim | rfl
  | integer i => cases b <;> first | exact hb.elim | rfl
  | _ => exact ha.elim

def proxied : StandIn where
  list := ⟨0⟩
  hidden := ⟨1⟩
  metatable := ⟨2⟩
  object := ⟨0⟩
  index := ⟨⟨0⟩, ⟨"index", .script (readingBody ⟨1⟩)⟩⟩
  newIndex := ⟨⟨1⟩, ⟨"newindex", .script (writingBody ⟨1⟩)⟩⟩
  length := ⟨⟨2⟩, ⟨"len", .script (measuringBody ⟨1⟩)⟩⟩

def three : Table := .ofList [.integer 3, .integer 1, .integer 2]

def hooked : Table :=
  ((({} : Table).setString indexHook (.function ⟨0⟩)).setString newIndexHook (.function ⟨1⟩)).setString
    lengthHook (.function ⟨2⟩)

/-- the list, its clone, the metatable of the object, and a table that is used as a list too -/
def doubled : Machine where
  heap :=
    { tables := ⟨#[three, three, hooked, .ofList [.integer 7]]⟩
      functions := ⟨#[proxied.index.function, proxied.newIndex.function, proxied.length.function,
        descending.function]⟩
      userdata := ⟨#[⟨some ⟨2⟩⟩]⟩ }
  globals := ⟨0⟩
  limits := {}

theorem elements_ofList {vs : List Value} (hvs : ∀ v ∈ vs, V v) (hnil : V .nil) (i : Int64) :
    V ((Table.ofList vs).getInteger i) := by
  rw [Table.getInteger_ofList]
  split
  · cases hv : vs[i.toInt.toNat - 1]? with
    | none => exact hnil
    | some v => exact hvs v (List.mem_of_getElem? hv)
  · exact hnil

theorem twin_doubled : proxied.Twin (· = ⟨3⟩) numbers doubled doubled where
  links := by decide
  level := by decide
  machine := rfl
  functions := rfl
  userdata := rfl
  size := rfl
  list_lt := by decide
  hidden_lt := by decide
  tables _ _ _ := rfl
  contents := ⟨rfl, rfl⟩
  plain := ⟨Table.WellFormed.ofList _, rfl, rfl⟩
  elements := elements_ofList (by simp [numbers]) trivial
  wired := ⟨rfl, rfl, rfl, rfl, rfl, rfl, rfl⟩
  others := by
    rintro _ rfl
    exact ⟨by decide, by decide, ⟨Table.WellFormed.ofList _, rfl, rfl⟩,
      ⟨Table.WellFormed.ofList _, rfl, rfl⟩, elements_ofList (by simp [numbers]) trivial⟩

/-- calls of every kind, of which the second fails -/
def exchanges : List ListCall :=
  [.insert .list (some 2) (.integer 5), .insert .list (some 40) (.integer 5), .sort .list .nil,
    .sort .list (.function descending.id), .move .list ⟨1, 2, 2⟩ (some (.value (.table ⟨3⟩))),
    .positional .insert [.list, .value (.integer 1), .value (.integer 9)],
    .concat .list ", " none none, .remove .list none, .unpack .list none none]

theorem proper_exchanges : ∀ c ∈ exchanges, c.Proper (· = ⟨3⟩) numbers := by
  simp only [exchanges, List.forall_mem_cons, ListCall.Proper, Operand.Proper]
  refine ⟨⟨trivial, trivial⟩, ⟨trivial, trivial⟩, trivial, trivial, ⟨trivial, ?_⟩,
    ⟨by decide, ?_, ?_⟩, trivial, trivial, trivial, fun _ hc => absurd hc List.not_mem_nil⟩
  · rintro _ ⟨rfl⟩
    exact Or.inl ⟨⟨3⟩, rfl, rfl⟩
  · intro i operand harg
    match i, harg with
    | 0, rfl => trivial
    | 1, rfl => nofun
    | 2, rfl => nofun
  · rintro _ v ⟨rfl⟩
    trivial

theorem comparator_exchanges : ∀ c ∈ exchanges, c.comparator? = none ∨
    c.comparator? = some none ∨ c.comparator? = some (some (.function descending.id)) := by
  decide

theorem indistinguishable_doubled :
    List.Forall₂ (fun a b => SameOutcome (List.Forall₂ proxied.Stands) a.1 b.1 ∧
        (b.2.heap.table ⟨1⟩).SameRaw (a.2.heap.table ⟨0⟩))
      (trace (fun c => attempt (c.run (Machine.host EvalM.call) (.table ⟨0⟩))) exchanges doubled)
      (trace (fun c => attempt (c.run (Machine.host EvalM.call) (.userdata ⟨0⟩))) exchanges
        doubled) := by
  have hcall : proxied.Forwards EvalM.call := Scripted.forwards ⟨rfl, rfl, rfl⟩
  have hbare : ∀ v, numbers v → v.isBare = true := fun v hv => by
    cases v <;> first | exact hv.elim | rfl
  have hV : ∀ v, numbers v → v ≠ .table proxied.list := fun v hv he => by
    rw [he] at hv
    exact hv
  refine indistinguishable (J := fun m => descending.In m.heap) hcall trivial hV proper_exchanges
    (unaware_function descending) (fun c hc q hq => ?_) twin_doubled rfl
  rcases comparator_exchanges c hc with h | h | h
  · rw [h] at hq
    cases hq
  · rw [h] at hq
    cases hq
    exact keepsOff_order hbare (fun _ _ _ hin => hin) fun _ _ hin => hin
  · rw [h] at hq
    cases hq
    exact keepsOff_function answers_descending

end StandIn

end ScriptTables
