import ScriptTables.Proofs.Library.Recording
import ScriptTables.Proofs.Library.Schedules
import ScriptTables.Proofs.Trace

/-!
# Transcripts

What an operation asks of its host and what it is answered, in order.  A record of requests does not
tell what came back, so it is put beside the same requests made one by one: each of them is answered
or raises from the state that the one before left behind.

What an operation is to ask depends on what it was answered: it writes the values that it read.  So a
plan is a list of requests with their answers, and an operation follows it when it makes all of these
requests, or fails with the error of one of them and makes no other after it.

* `Request.perform host r`    a request, made of a host;
* `Performed perform s xs t`  requests made one by one, with what came back, lead from `s` to `t`;
* `Follows plan result xs`    the exchanges are those that were planned;
* `Obeys`, `Continues`        an operation follows a plan, from the start or from its entry on;
* `copyPlan`, `insertPlan`, `removePlan`   what the operations plan;
* `Unspoilt plan`             nothing is read behind a write of it;
* `Talk`, `Talk.Tells`        what an action goes on with behind the exchanges so far;
* `Talk.Serves`               a way to make requests that a host keeps to;
* `tells_copyEach`, `tells_insertAt`, `tells_removeAt`, `tells_moveBetween`   the operations on
                              checked collections.
-/

namespace ScriptTables

/-! ## exchanges -/

abbrev Exchange := Request × Except Error Value

/-- a request of a host; where nothing is answered the answer is `nil` -/
def Request.perform {σ : Type} (host : Host σ) : Request → Action σ Value
  | .length object => host.length object
  | .index object key => host.index object key
  | .setIndex object key v => do
    host.setIndex object key v
    pure .nil
  | .lessThan a b => do
    let less ← host.lessThan a b
    pure (.boolean less)
  | .call callee arguments => host.call callee arguments

/-- Requests made one after the other, each from the state behind the one before. -/
inductive Performed {σ : Type} (perform : Request → Action σ Value) (s : σ) :
    List Exchange → σ → Prop where
  | start : Performed perform s [] s
  | answered {xs : List Exchange} {t u : σ} {r : Request} {v : Value}
      (before : Performed perform s xs t) (h : (perform r).run t = .ok v u) :
      Performed perform s (xs ++ [(r, .ok v)]) u
  | raised {xs : List Exchange} {t u : σ} {r : Request} {e : Error}
      (before : Performed perform s xs t) (h : (perform r).run t = .error e u) :
      Performed perform s (xs ++ [(r, .error e)]) u

theorem Performed.eq_of_nil {σ : Type} {perform : Request → Action σ Value} {s t : σ}
    (h : Performed perform s [] t) : t = s := by
  generalize hxs : ([] : List Exchange) = xs at h
  cases h with
  | start => rfl
  | answered => simp at hxs
  | raised => simp at hxs

/-! ## plans -/

/-- requests with the answers that they get -/
abbrev Plan := List (Request × Value)

def answered (plan : Plan) : List Exchange := plan.map fun p => (p.1, .ok p.2)

theorem answered_append (plan more : Plan) :
    answered (plan ++ more) = answered plan ++ answered more := List.map_append

/-- The exchanges are those of a plan: all of them where it has a result, else those up to the request
that raised the error. -/
inductive Follows {α : Type} (plan : Plan) (result : α) : List Exchange → Except Error α → Prop where
  | whole : Follows plan result (answered plan) (.ok result)
  | cut {before after : Plan} {r : Request} {v : Value} (e : Error)
      (h : plan = before ++ (r, v) :: after) :
      Follows plan result (answered before ++ [(r, .error e)]) (.error e)

/-- Behind the requests of its entry, and from the state that the entry ended in, an operation makes
the requests that were planned and no others, and it ends as they do. -/
def Continues {σ α : Type} (host : Host σ) (perform : Request → Action σ Value)
    (entry : List Request) (s t : σ) (operation : ∀ {τ : Type}, Host τ → Action τ α) (plan : Plan)
    (result : α) : Prop :=
  ∃ xs : List Exchange,
    requests (operation host.recorded) s = entry ++ xs.map Prod.fst ∧
    Performed perform t xs (attempt (operation host) s).2 ∧
    Follows plan result xs (attempt (operation host) s).1

/-- the requests of an operation are those that were planned, from the very start -/
def Obeys {σ α : Type} (host : Host σ) (perform : Request → Action σ Value) (s : σ)
    (operation : ∀ {τ : Type}, Host τ → Action τ α) (plan : Plan) (result : α) : Prop :=
  Continues host perform [] s s operation plan result

/-- each value is read and then written, in the order of a list of pairs of positions -/
def copyPlan (source target : Value) (pairs : List (Int × Int)) (copied : List Value) : Plan :=
  (pairs.zip copied).flatMap fun (p, v) =>
    [(.index source (.integer (Int64.ofInt p.1)), v),
      (.setIndex target (.integer (Int64.ofInt p.2)) v, .nil)]

/-- an insertion at `p`, where `last` is the position behind the border -/
def insertPlan (object : Value) (last p : Int) (v : Value) (copied : List Value) : Plan :=
  copyPlan object object (upward p (p + 1) (last - p).toNat).reverse copied
    ++ [(.setIndex object (.integer (Int64.ofInt p)) v, .nil)]

def removePlan (object : Value) (b p : Int) (removed : Value) (copied : List Value) : Plan :=
  (.index object (.integer (Int64.ofInt p)), removed)
    :: copyPlan object object (upward (p + 1) p (b - p).toNat) copied
    ++ [(.setIndex object (.integer (Int64.ofInt (max p b))) .nil, .nil)]

/-- no element is read behind a write of it -/
def Unspoilt (plan : Plan) : Prop :=
  plan.Pairwise fun x y => ∀ object key v, x.1 = .setIndex object key v → y.1 ≠ .index object key

theorem Unspoilt.cons {plan : Plan} (h : Unspoilt plan) {x : Request × Value}
    (hx : ∀ object key v, x.1 ≠ .setIndex object key v) : Unspoilt (x :: plan) :=
  List.pairwise_cons.mpr ⟨fun _ _ object key v hw => absurd hw (hx object key v), h⟩

theorem Unspoilt.concat {plan : Plan} (h : Unspoilt plan) {x : Request × Value}
    (hx : ∀ object key, x.1 ≠ .index object key) : Unspoilt (plan ++ [x]) := by
  refine List.pairwise_append.mpr ⟨h, List.pairwise_singleton _ _, fun y _ z hz object key v _ => ?_⟩
  rw [List.mem_singleton.mp hz]
  exact hx object key

theorem mem_copyPlan {source target : Value} {pairs : List (Int × Int)} {copied : List Value}
    {x : Request × Value} (hx : x ∈ copyPlan source target pairs copied) :
    ∃ p ∈ pairs, x.1 = .index source (.integer (Int64.ofInt p.1)) ∨
      ∃ v, x.1 = .setIndex target (.integer (Int64.ofInt p.2)) v := by
  obtain ⟨⟨p, v⟩, hmem, hx⟩ := List.mem_flatMap.mp hx
  refine ⟨p, (List.of_mem_zip hmem).1, ?_⟩
  rcases List.mem_cons.mp hx with rfl | hx
  · exact Or.inl rfl
  · rw [List.mem_singleton.mp hx]
    exact Or.inr ⟨v, rfl⟩

theorem unspoilt_copyPlan {source target : Value} (pairs : List (Int × Int)) :
    (source = target → pairs.Pairwise fun p q => Int64.ofInt p.2 ≠ Int64.ofInt q.1) →
      ∀ copied, Unspoilt (copyPlan source target pairs copied) := by
  induction pairs with
  | nil => exact fun _ _ => List.Pairwise.nil
  | cons p pairs ih =>
    intro hclear copied
    cases copied with
    | nil => exact List.Pairwise.nil
    | cons v copied =>
      have hrest := ih (fun hsame => (List.pairwise_cons.mp (hclear hsame)).2) copied
      have hwrite : Unspoilt ((.setIndex target (.integer (Int64.ofInt p.2)) v, .nil)
          :: copyPlan source target pairs copied) := by
        refine List.pairwise_cons.mpr ⟨fun x hx object key w hw hread => ?_, hrest⟩
        obtain ⟨q, hq, hindex | ⟨_, hset⟩⟩ := mem_copyPlan hx
        · rw [hread] at hindex
          obtain ⟨rfl, rfl, _⟩ := Request.setIndex.inj hw
          obtain ⟨hsame, hkey⟩ := Request.index.inj hindex
          exact (List.pairwise_cons.mp (hclear hsame.symm)).1 q hq (Value.integer.inj hkey)
        · rw [hread] at hset
          cases hset
      exact hwrite.cons fun _ _ _ h => Request.noConfusion h

theorem unspoilt_insertPlan (object : Value) {last p : Int} (hlow : 1 ≤ p) (hhigh : p ≤ last)
    (hfits : last < 2 ^ 63) (v : Value) (copied : List Value) :
    Unspoilt (insertPlan object last p v copied) := by
  have hcopies := unspoilt_copyPlan (upward p (p + 1) (last - p).toNat).reverse
    (fun _ : object = object => downward_clear (by omega) (by omega) (by omega)) copied
  exact hcopies.concat fun _ _ h => Request.noConfusion h

theorem unspoilt_removePlan (object : Value) {b p : Int} (hlow : -2 ^ 63 ≤ p) (hp : p < 2 ^ 63)
    (hb : b < 2 ^ 63) (removed : Value) (copied : List Value) :
    Unspoilt (removePlan object b p removed copied) := by
  have hcopies := unspoilt_copyPlan (upward (p + 1) p (b - p).toNat)
    (fun _ : object = object => upward_clear (by omega) (by omega) (by omega)) copied
  have hfirst : Unspoilt ((.index object (.integer (Int64.ofInt p)), removed) :: _) :=
    hcopies.cons fun _ _ _ h => Request.noConfusion h
  exact hfirst.concat fun _ _ h => Request.noConfusion h

/-! ## telling -/

/-- How requests are made and what stays true, and where the exchanges begin: in which state, and
behind which requests. -/
structure Talk (σ : Type) where
  perform : Request → Action σ Value
  Kept : σ → Prop
  entry : List Request
  start : σ

namespace Talk

section
variable {σ α β : Type} {k : Talk σ}

structure Told (k : Talk σ) (xs : List Exchange) (t : Recorded σ) : Prop where
  requests : t.requests = k.entry ++ xs.map Prod.fst
  performed : Performed k.perform k.start xs t.state
  kept : k.Kept t.state

def Cut (k : Talk σ) (plan : Plan) (e : Error) (t : Recorded σ) : Prop :=
  ∃ before r v after, plan = before ++ (r, v) :: after ∧
    k.Told (answered before ++ [(r, .error e)]) t

theorem Cut.append {plan : Plan} {e : Error} {t : Recorded σ} (h : k.Cut plan e t) (more : Plan) :
    k.Cut (plan ++ more) e t := by
  obtain ⟨before, r, v, after, rfl, ht⟩ := h
  exact ⟨before, r, v, after ++ more, List.append_assoc _ _ _, ht⟩

/-- Behind what was told an action goes on with one of the plans that belong to its result. -/
def Tells (k : Talk σ) (plan : Plan) (x : Action (Recorded σ) α) (plans : α → Plan → Prop) : Prop :=
  Ends (k.Told (answered plan)) x
    (fun a t => ∃ more, plans a more ∧ k.Told (answered (plan ++ more)) t)
    fun e t => ∃ a more, plans a more ∧ k.Cut (plan ++ more) e t

variable {plan : Plan}

theorem Tells.pure (a : α) : k.Tells plan (pure a) fun b more => b = a ∧ more = [] := by
  refine Ends.pure fun t ht => ⟨[], ⟨rfl, rfl⟩, ?_⟩
  rw [List.append_nil]
  exact ht

theorem Tells.mono {x : Action (Recorded σ) α} {plans plans' : α → Plan → Prop}
    (h : k.Tells plan x plans) (hplans : ∀ a more, plans a more → plans' a more) :
    k.Tells plan x plans' := by
  refine Ends.mono h (fun _ ht => ht) (fun a t ht => ?_) fun e t he => ?_
  · obtain ⟨more, hmore, ht⟩ := ht
    exact ⟨more, hplans a more hmore, ht⟩
  · obtain ⟨a, more, hmore, he⟩ := he
    exact ⟨a, more, hplans a more hmore, he⟩

/-- One plan behind the other.  Where the first part fails the second one is not begun, and any of its
plans will do. -/
theorem Tells.bind {x : Action (Recorded σ) α} {next : α → Action (Recorded σ) β}
    {plans : α → Plan → Prop} {plans' : α → β → Plan → Prop} (h : k.Tells plan x plans)
    (hnext : ∀ a first, plans a first → k.Tells (plan ++ first) (next a) (plans' a))
    (hsome : ∀ a, ∃ b more, plans' a b more) :
    k.Tells plan (x >>= next) fun b more =>
      ∃ a first rest, plans a first ∧ plans' a b rest ∧ more = first ++ rest := by
  refine Ends.bind (Ends.mono h (fun _ ht => ht) (fun _ _ ht => ht) fun e t he => ?_) fun a => ?_
  · obtain ⟨a, first, hfirst, he⟩ := he
    obtain ⟨b, rest, hrest⟩ := hsome a
    refine ⟨b, first ++ rest, ⟨a, first, rest, hfirst, hrest, rfl⟩, ?_⟩
    rw [← List.append_assoc]
    exact he.append rest
  · rintro t ⟨first, hfirst, ht⟩
    refine Ends.mono (hnext a first hfirst) (fun _ ht => ht) (fun b t ht => ?_) (fun e t he => ?_) t
      ht
    · obtain ⟨rest, hrest, ht⟩ := ht
      refine ⟨first ++ rest, ⟨a, first, rest, hfirst, hrest, rfl⟩, ?_⟩
      rw [← List.append_assoc]
      exact ht
    · obtain ⟨b, rest, hrest, he⟩ := he
      refine ⟨b, first ++ rest, ⟨a, first, rest, hfirst, hrest, rfl⟩, ?_⟩
      rw [← List.append_assoc]
      exact he

theorem Tells.follows {x : Action (Recorded σ) α} {plans : α → Plan → Prop} (h : k.Tells [] x plans)
    (hstart : k.Kept k.start) {y : Action σ α} (hstep : InStep Recorded.Of (· = ·) x y) :
    ∃ a plan xs, plans a plan ∧
      (finalState (x.run ⟨k.start, k.entry⟩)).requests = k.entry ++ xs.map Prod.fst ∧
      Performed k.perform k.start xs (attempt y k.start).2 ∧
      Follows plan a xs (attempt y k.start).1 := by
  have h := h ⟨k.start, k.entry⟩ ⟨(List.append_nil _).symm, .start, hstart⟩
  rcases hstep.run (show Recorded.Of ⟨k.start, k.entry⟩ k.start from rfl) with
    ⟨a, t, _, u, hx, hy, rfl, hst⟩ | ⟨e, t, u, hx, hy, hst⟩
  · obtain rfl : t.state = u := hst
    rw [hx] at h ⊢
    obtain ⟨plan, hplan, ht⟩ := h
    rw [attempt_of_ok hy]
    exact ⟨a, plan, _, hplan, ht.requests, ht.performed, .whole⟩
  · obtain rfl : t.state = u := hst
    rw [hx] at h ⊢
    obtain ⟨a, plan, hplan, before, r, v, after, hcut, ht⟩ := h
    rw [attempt_of_error hy]
    exact ⟨a, plan, _, hplan, ht.requests, ht.performed, .cut e hcut⟩

theorem Tells.obeys {host : Host σ} (operation : ∀ {τ : Type}, Host τ → Action τ α)
    {plans : α → Plan → Prop} (h : k.Tells [] (operation host.recorded) plans)
    (hentry : k.entry = []) (hstart : k.Kept k.start)
    (hstep : InStep Recorded.Of (· = ·) (operation host.recorded) (operation host)) :
    ∃ a plan, plans a plan ∧ Obeys host k.perform k.start operation plan a := by
  obtain ⟨a, plan, xs, hplan, hrequests, hperformed, hfollows⟩ := h.follows hstart hstep
  rw [hentry] at hrequests
  exact ⟨a, plan, hplan, xs, hrequests, hperformed, hfollows⟩

/-! ## requests -/

/-- A host makes the requests with `A` as they are made here, and they keep what is kept. -/
structure Serves (k : Talk σ) (host : Host σ) (A : Request → Prop) : Prop where
  run : ∀ r, A r → ∀ t, k.Kept t → (r.perform host).run t = (k.perform r).run t
  keeps : ∀ r, A r → Keeps k.Kept (k.perform r)

def ofHost (host : Host σ) (entry : List Request) (start : σ) : Talk σ where
  perform := Request.perform host
  Kept _ := True
  entry := entry
  start := start

theorem serves_ofHost (host : Host σ) (entry : List Request) (start : σ) :
    (ofHost host entry start).Serves host fun _ => True where
  run _ _ _ _ := rfl
  keeps _ _ := Ends.of_always (fun _ _ => trivial) fun _ _ => trivial

variable {host : Host σ} {A : Request → Prop}

theorem tells_answer (h : k.Serves host A) {r : Request} (hr : A r) {x : Action σ β}
    {f : β → Value} (hx : r.perform host = (do let b ← x; Pure.pure (f b))) {Q : β → Prop}
    (hsome : ∃ b, Q b) (hanswer : ∀ t b u, Performed k.perform k.start (answered plan) t →
      k.Kept t → x.run t = .ok b u → Q b) :
    k.Tells plan (recording r x) fun b more => Q b ∧ more = [(r, f b)] := by
  intro t ht
  have hrun := h.run r hr t.state ht.kept
  have hkeeps := h.keeps r hr t.state ht.kept
  rw [← hrun, hx, run_bind] at hkeeps
  rw [hx, run_bind] at hrun
  rw [recording_run]
  cases hxt : x.run t.state with
  | ok b u =>
    rw [hxt] at hrun hkeeps
    refine ⟨_, ⟨hanswer t.state b u ht.performed ht.kept hxt, rfl⟩, ?_, ?_, hkeeps⟩
    · rw [answered_append, ht.requests, List.map_append, List.append_assoc]
      rfl
    · rw [answered_append]
      exact ht.performed.answered hrun.symm
  | error e u =>
    rw [hxt] at hrun hkeeps
    obtain ⟨b, hb⟩ := hsome
    refine ⟨b, _, ⟨hb, rfl⟩, plan, r, _, [], rfl, ?_, ht.performed.raised hrun.symm, hkeeps⟩
    rw [ht.requests, List.map_append, List.append_assoc]
    rfl

/-- what is told behind some first part is what the operation does from then on -/
theorem Tells.resumes {γ : Type} {s t : σ} {a : γ} (first : ∀ {τ : Type}, Host τ → Action τ γ)
    (hfirst : (first host).run s = .ok a t)
    (hin : InStep Recorded.Of (· = ·) (first host.recorded) (first host))
    (next : ∀ {τ : Type}, Host τ → γ → Action τ α) {plans : α → Plan → Prop}
    (h : ∀ entry, (ofHost host entry t).Tells [] (next host.recorded a) plans)
    (hstep : InStep Recorded.Of (· = ·) (next host.recorded a) (next host a)) :
    ∃ b plan, plans b plan ∧
      Continues host (Request.perform host) (requests (first host.recorded) s) s t
        (fun host => first host >>= next host) plan b := by
  obtain ⟨b, plan, xs, hplan, hrequests, hperformed, hfollows⟩ := (h _).follows trivial hstep
  have hattempt : attempt (first host >>= next host) s = attempt (next host a) t := by
    unfold attempt
    rw [run_bind_of_ok hfirst]
  refine ⟨b, plan, hplan, xs, ?_, ?_, ?_⟩
  · rw [requests_bind_of_ok hin hfirst]
    exact hrequests
  · rw [hattempt]
    exact hperformed
  · rw [hattempt]
    exact hfollows

theorem Tells.continues {s t : σ} {v : Value} {c : Collection} {border : Int64} {function : String}
    {required : Capabilities}
    (hentry : (host.collectionWithBorder (some v) 1 function required).run s = .ok (c, border) t)
    (next : ∀ {τ : Type}, Host τ → Collection → Int64 → Action τ α) {plans : α → Plan → Prop}
    (h : ∀ entry, (ofHost host entry t).Tells [] (next host.recorded c border) plans)
    (hstep : InStep Recorded.Of (· = ·) (next host.recorded c border) (next host c border)) :
    ∃ a plan, plans a plan ∧
      Continues host (Request.perform host)
        (requests (host.recorded.collectionWithBorder (some v) 1 function required) s) s t
        (fun host => do
          let (c, border) ← host.collectionWithBorder (some v) 1 function required
          next host c border) plan a :=
  Tells.resumes (fun host => host.collectionWithBorder (some v) 1 function required) hentry
    (host.recorded_matching.collectionWithBorder v 1 function required)
    (fun host p => next host p.1 p.2) h hstep

theorem tells_recording [Inhabited β] (h : k.Serves host A) {r : Request} (hr : A r)
    {x : Action σ β} {f : β → Value} (hx : r.perform host = (do let b ← x; Pure.pure (f b))) :
    k.Tells plan (recording r x) fun b more => more = [(r, f b)] :=
  (tells_answer h hr hx ⟨default, trivial⟩ fun _ _ _ _ _ _ => trivial).mono fun _ _ hmore => hmore.2

def Reads (A : Request → Prop) (c : Collection) : Prop :=
  ∀ i : Int, A (.index c.value (.integer (Int64.ofInt i)))

def Writes (A : Request → Prop) (c : Collection) : Prop :=
  ∀ (i : Int) (v : Value), A (.setIndex c.value (.integer (Int64.ofInt i)) v)

variable {c d : Collection}

theorem tells_get (h : k.Serves host A) (hc : Reads A c) (i : Int) :
    k.Tells plan (c.get host.recorded i) fun v more =>
      more = [(.index c.value (.integer (Int64.ofInt i)), v)] :=
  tells_recording h (hc i) (bind_pure _).symm

theorem tells_set (h : k.Serves host A) (hc : Writes A c) (i : Int) (v : Value) :
    k.Tells plan (c.set host.recorded i v) fun _ more =>
      more = [(.setIndex c.value (.integer (Int64.ofInt i)) v, .nil)] :=
  tells_recording h (hc i v) rfl

/-! ## the operations -/

def Copying (n : Nat) (plan : List Value → Plan) (more : Plan) : Prop :=
  ∃ copied, copied.length = n ∧ more = plan copied

theorem exists_copying (n : Nat) (plan : List Value → Plan) : ∃ more, Copying n plan more :=
  ⟨_, List.replicate n .nil, List.length_replicate, rfl⟩

theorem tells_copyEach (h : k.Serves host A) (hc : Reads A c) (hd : Writes A d)
    (pairs : List (Int × Int)) :
    k.Tells plan (Collection.copyEach host.recorded c d pairs) fun _ =>
      Copying pairs.length (copyPlan c.value d.value pairs) := by
  induction pairs generalizing plan with
  | nil => exact (Tells.pure ()).mono fun _ more hmore => ⟨[], rfl, hmore.2⟩
  | cons p pairs ih =>
    refine (Tells.bind (tells_get h hc p.1) (fun v _ _ => Tells.bind (tells_set h hd p.2 v)
      (fun _ _ _ => ih) fun _ => ⟨(), exists_copying _ _⟩) fun v => ?_).mono ?_
    · obtain ⟨more, hmore⟩ := exists_copying pairs.length (copyPlan c.value d.value pairs)
      exact ⟨(), _, (), _, more, rfl, hmore, rfl⟩
    · rintro _ _ ⟨v, _, _, rfl, ⟨_, _, _, rfl, ⟨copied, hlength, rfl⟩, rfl⟩, rfl⟩
      exact ⟨v :: copied, congrArg (· + 1) hlength, rfl⟩

theorem tells_insertAt (h : k.Serves host A) (hr : Reads A c) (hw : Writes A c) {border : Int64}
    {position : Option Int64} {p : Int}
    (hp : position.elim (Collection.appendPosition border) Int64.toInt = p) (hlow : 1 ≤ p)
    (hhigh : p ≤ Collection.appendPosition border) (hstart : position = none ∨ p + 1 < 2 ^ 63)
    (v : Value) :
    k.Tells plan (c.insertAt host.recorded border position v) fun _ =>
      Copying (Collection.appendPosition border - p).toNat
        (insertPlan c.value (Collection.appendPosition border) p v) := by
  rw [Collection.insertAt_eq _ _ hp hlow hhigh hstart]
  refine (Tells.bind (tells_copyEach h hr hw _) (fun _ _ _ => tells_set h hw p v)
    fun _ => ⟨(), _, rfl⟩).mono ?_
  rintro _ _ ⟨_, _, _, ⟨copied, hlength, rfl⟩, rfl, rfl⟩
  rw [List.length_reverse, length_upward] at hlength
  exact ⟨copied, hlength, rfl⟩

theorem tells_removeAt (h : k.Serves host A) (hr : Reads A c) (hw : Writes A c) {border p : Int64}
    {position : Option Int64} (hp : position.getD border = p)
    (hin : Collection.isRemovable border p = true) :
    k.Tells plan (c.removeAt host.recorded border position) fun r more => ∃ removed, r = some removed ∧
      Copying (border.toInt - p.toInt).toNat
        (removePlan c.value border.toInt p.toInt removed) more := by
  rw [Collection.removeAt_eq _ _ hp hin]
  refine (Tells.bind (tells_get h hr _) (fun removed _ _ => Tells.bind (tells_copyEach h hr hw _)
    (fun _ _ _ => Tells.bind (tells_set h hw _ _) (fun _ _ _ => Tells.pure (some removed)) fun _ =>
      ⟨_, _, rfl, rfl⟩) fun _ => ⟨_, _, (), _, _, rfl, ⟨rfl, rfl⟩, rfl⟩) fun removed => ?_).mono ?_
  · obtain ⟨more, hmore⟩ := exists_copying _ (copyPlan c.value c.value
      (upward (p.toInt + 1) p.toInt (border.toInt - p.toInt).toNat))
    exact ⟨_, _, (), more, _, hmore, ⟨(), _, _, rfl, ⟨rfl, rfl⟩, rfl⟩, rfl⟩
  · rintro _ _ ⟨removed, _, _, rfl, ⟨_, _, _, ⟨copied, hlength, rfl⟩,
      ⟨_, _, _, rfl, ⟨rfl, rfl⟩, rfl⟩, rfl⟩, rfl⟩
    rw [length_upward] at hlength
    refine ⟨removed, rfl, copied, hlength, ?_⟩
    rw [List.append_nil]
    rfl

theorem tells_moveBetween (h : k.Serves host A) (hr : Reads A c) (hw : Writes A d) {r : MoveRange}
    (hne : ¬r.isEmpty = true) (hfault : r.fault? = none) :
    k.Tells plan (host.recorded.moveBetween c r d) fun _ =>
      Copying r.count.toNat (copyPlan c.value d.value (r.schedule c d)) := by
  rw [Host.moveBetween_eq _ _ _ hne hfault]
  refine (tells_copyEach h hr hw _).mono ?_
  rintro _ _ ⟨copied, hlength, rfl⟩
  exact ⟨copied, hlength.trans (r.length_schedule c d), rfl⟩

end

end Talk

end ScriptTables
