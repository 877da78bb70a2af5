import ScriptTables.Proofs.Action
import ScriptTables.Proofs.Sort.Arrangement
import ScriptTables.Sort.Range

/-!
# Slots that can be sorted

States show arrangements: `Shows s f` tells that the slot `i` of `s` holds `f i`, for each of the
slots `first, ..., n`.  The slots can be sorted when reading, exchanging and asking do to the arrangement
what they should and the answers come from a strict weak order.  They may still fail on the way; then
nothing but `E` is known, and a sort fails the same way.

* `Slots.Sortable`             what reading, exchanging and asking do;
* `Slots.Brings`               what an action makes of an arrangement;
* `Slots.Within lo hi`         the places `lo, ..., hi`.
-/

namespace ScriptTables

namespace Slots

def Within (lo hi i : Nat) : Prop := lo ≤ i ∧ i ≤ hi

structure Sortable {σ : Type} (slots : Slots σ) (first n : Nat) (Shows : σ → (Nat → Value) → Prop)
    (V : Value → Prop) (lt : Value → Value → Bool) (E : Error → σ → Prop) : Prop where
  strictWeak : StrictWeak V lt
  values : ∀ s f, Shows s f → ∀ i, first ≤ i → i ≤ n → V (f i)
  get : ∀ f i, first ≤ i → i ≤ n →
    Ends (Shows · f) (slots.get i) (fun v s => v = f i ∧ Shows s f) E
  swap : ∀ f i j, first ≤ i → i ≤ n → first ≤ j → j ≤ n →
    Ends (Shows · f) (slots.swap i j) (fun _ s => Shows s (exchanged f i j)) E
  less : ∀ f a b, V a → V b →
    Ends (Shows · f) (slots.less a b) (fun r s => r = lt a b ∧ Shows s f) E

/-- from states that show `f` the action leads to one that shows some `g` with `Q` -/
def Brings {σ α : Type} (Shows : σ → (Nat → Value) → Prop) (E : Error → σ → Prop)
    (f : Nat → Value) (x : Action σ α) (Q : α → (Nat → Value) → Prop) : Prop :=
  Ends (Shows · f) x (fun a s => ∃ g, Q a g ∧ Shows s g) E

section
variable {σ α β : Type} {Shows : σ → (Nat → Value) → Prop} {E : Error → σ → Prop}
  {f : Nat → Value} {x : Action σ α} {M Q Q' : α → (Nat → Value) → Prop}

theorem Brings.pure {a : α} (h : Q a f) : Brings Shows E f (pure a : Action σ α) Q :=
  Ends.pure fun _ hs => ⟨f, h, hs⟩

theorem Brings.bind {k : α → Action σ β} {Q : β → (Nat → Value) → Prop}
    (hx : Brings Shows E f x M) (hk : ∀ a g, M a g → Brings Shows E g (k a) Q) :
    Brings Shows E f (x >>= k) Q := by
  refine Ends.bind hx fun a s hs => ?_
  obtain ⟨g, hg, hs⟩ := hs
  exact hk a g hg s hs

/-- what goes on after a known result that left the arrangement as it was -/
theorem Brings.bind_known {a : α} {k : α → Action σ β} {Q : β → (Nat → Value) → Prop}
    (hx : Brings Shows E f x (fun r g => r = a ∧ g = f)) (hk : Brings Shows E f (k a) Q) :
    Brings Shows E f (x >>= k) Q := by
  refine hx.bind fun r g hr => ?_
  obtain ⟨rfl, rfl⟩ := hr
  exact hk

theorem Brings.bind_to {f' : Nat → Value} {k : α → Action σ β} {Q : β → (Nat → Value) → Prop}
    (hx : Brings Shows E f x (fun _ g => g = f')) (hk : ∀ a, Brings Shows E f' (k a) Q) :
    Brings Shows E f (x >>= k) Q := by
  refine hx.bind fun a g hg => ?_
  subst hg
  exact hk a

theorem Brings.mono (h : Brings Shows E f x Q) (hQ : ∀ a g, Q a g → Q' a g) :
    Brings Shows E f x Q' := by
  refine Ends.mono h (fun _ hs => hs) (fun a s hs => ?_) fun _ _ he => he
  obtain ⟨g, hg, hs⟩ := hs
  exact ⟨g, hQ a g hg, hs⟩

theorem Brings.ite {b : Bool} {y : Action σ α} (hx : b = true → Brings Shows E f x Q)
    (hy : b = false → Brings Shows E f y Q) :
    Brings Shows E f (if b = true then x else y) Q := by
  cases b with
  | true => exact hx rfl
  | false => exact hy rfl

end

/-! ## asking and exchanging -/

namespace Sortable

variable {σ α : Type} {slots : Slots σ} {first n : Nat} {Shows : σ → (Nat → Value) → Prop}
  {V : Value → Prop} {lt : Value → Value → Bool} {E : Error → σ → Prop}

/-- what an action does may be shown knowing that the arrangement holds values of the order -/
theorem of_values (h : Sortable slots first n Shows V lt E) {f : Nat → Value} {x : Action σ α}
    {Q : α → (Nat → Value) → Prop}
    (hx : (∀ i, first ≤ i → i ≤ n → V (f i)) → Brings Shows E f x Q) : Brings Shows E f x Q :=
  fun s hs => hx (h.values s f hs) s hs

theorem read (h : Sortable slots first n Shows V lt E) (f : Nat → Value) {i : Nat}
    (hi : first ≤ i ∧ i ≤ n) :
    Brings Shows E f (slots.get i) (fun v g => v = f i ∧ g = f) := by
  refine (h.get f i hi.1 hi.2).mono (fun _ hs => hs) (fun v s hs => ?_) fun _ _ he => he
  exact ⟨f, ⟨hs.1, rfl⟩, hs.2⟩

theorem ask (h : Sortable slots first n Shows V lt E) (f : Nat → Value) {a b : Value} (ha : V a)
    (hb : V b) : Brings Shows E f (slots.less a b) (fun r g => r = lt a b ∧ g = f) := by
  refine (h.less f a b ha hb).mono (fun _ hs => hs) (fun v s hs => ?_) fun _ _ he => he
  exact ⟨f, ⟨hs.1, rfl⟩, hs.2⟩

theorem exchange (h : Sortable slots first n Shows V lt E) (f : Nat → Value) {i j : Nat}
    (hi : first ≤ i ∧ i ≤ n) (hj : first ≤ j ∧ j ≤ n) :
    Brings Shows E f (slots.swap i j) (fun _ g => g = exchanged f i j) := by
  refine (h.swap f i j hi.1 hi.2 hj.1 hj.2).mono (fun _ hs => hs) (fun _ s hs => ?_)
    fun _ _ he => he
  exact ⟨exchanged f i j, rfl, hs⟩

theorem lessAt (h : Sortable slots first n Shows V lt E) (f : Nat → Value) {i j : Nat}
    (hi : first ≤ i ∧ i ≤ n) (hj : first ≤ j ∧ j ≤ n) :
    Brings Shows E f (slots.lessAt i j) (fun r g => r = lt (f i) (f j) ∧ g = f) := by
  refine h.of_values fun hV => ?_
  refine Brings.bind_known (h.read f hi) ?_
  refine Brings.bind_known (h.read f hj) ?_
  exact h.ask f (hV i hi.1 hi.2) (hV j hj.1 hj.2)

theorem swapIfLess (h : Sortable slots first n Shows V lt E) (f : Nat → Value) {i j : Nat}
    (hi : first ≤ i ∧ i ≤ n) (hj : first ≤ j ∧ j ≤ n) :
    Brings Shows E f (slots.swapIfLess i j) (fun _ g =>
      lt (g i) (g j) = false ∧ (g = f ∨ g = exchanged f i j)) := by
  refine h.of_values fun hV => ?_
  refine Brings.bind_known (h.lessAt f hi hj) ?_
  refine Brings.ite (fun hless => ?_) fun hless => Brings.pure ⟨hless, Or.inl rfl⟩
  refine (h.exchange f hi hj).mono fun _ g hg => ?_
  subst hg
  refine ⟨?_, Or.inr rfl⟩
  rw [exchanged_left, exchanged_right]
  exact h.strictWeak.asymm (hV i hi.1 hi.2) (hV j hj.1 hj.2) hless

end Sortable

end Slots

end ScriptTables
