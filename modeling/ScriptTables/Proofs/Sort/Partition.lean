import ScriptTables.Proofs.Sort.Sortable

/-!
# A partition puts the pivot in its place

While the cursors run, all that the left one has passed may stand before the pivot and all that the
right one has passed may stand behind it.  The values at the ends of the range keep this true from the
start, and they stop the cursors where no other value does.

* `Slots.Crossing`             that, as a property of the arrangement;
* `Slots.Split lo p hi`        the value at `p` may stand behind all before it and before all behind it;
* `Slots.Sortable.partition`   the range afterwards.
-/

namespace ScriptTables

namespace Slots

structure Crossing (lt : Value → Value → Bool) (pivot : Value) (lo top i j : Nat)
    (f : Nat → Value) : Prop where
  left : ∀ x, lo ≤ x → x ≤ i → lt pivot (f x) = false
  right : ∀ x, j ≤ x → x ≤ top → lt (f x) pivot = false
  parked : f top = pivot

/-- the cursors stop at values that do not stand on their side, and those are exchanged -/
theorem Crossing.exchanged {lt : Value → Value → Bool} {pivot : Value} {lo top i j i' j' : Nat}
    {f : Nat → Value} (h : Crossing lt pivot lo top i j f)
    (hup : ∀ x, i < x → x < i' → lt pivot (f x) = false) (hi' : lt (f i') pivot = false)
    (hdown : ∀ x, j' < x → x < j → lt (f x) pivot = false) (hj' : lt pivot (f j') = false)
    (hle : i' ≤ j') (htop : j' < top) :
    Crossing lt pivot lo top i' j' (exchanged f i' j') where
  left x hx hxi := by
    by_cases he : x = i'
    · rw [he, exchanged_left]
      exact hj'
    · rw [exchanged_of_ne f he (by omega)]
      by_cases hxi' : x ≤ i
      · exact h.left x hx hxi'
      · exact hup x (by omega) (by omega)
  right x hx hxt := by
    by_cases he : x = j'
    · rw [he, exchanged_right]
      exact hi'
    · rw [exchanged_of_ne f (by omega) he]
      by_cases hxj : j ≤ x
      · exact h.right x hxj hxt
      · exact hdown x (by omega) (by omega)
  parked := by
    rw [exchanged_of_ne f (by omega) (by omega)]
    exact h.parked

structure Split (lt : Value → Value → Bool) (lo p hi : Nat) (f : Nat → Value) : Prop where
  before : ∀ x, lo ≤ x → x < p → lt (f p) (f x) = false
  behind : ∀ x, p < x → x ≤ hi → lt (f x) (f p) = false

theorem Split.arranged {lt : Value → Value → Bool} {lo p hi : Nat} {f g : Nat → Value}
    (h : Split lt lo p hi f) {D : Nat → Prop} (hg : Arranged D f g)
    (hD : (∀ x, D x → lo ≤ x ∧ x < p) ∨ ∀ x, D x → p < x ∧ x ≤ hi) : Split lt lo p hi g := by
  have hp : g p = f p := by
    refine hg.eq_of_not fun hin => ?_
    rcases hD with hD | hD
    · exact absurd (hD p hin).2 (by omega)
    · exact absurd (hD p hin).1 (by omega)
  have hstill : ∀ x, ∃ y, g x = f y ∧ (lo ≤ x → x < p → lo ≤ y ∧ y < p) ∧
      (p < x → x ≤ hi → p < y ∧ y ≤ hi) := by
    intro x
    by_cases hx : D x
    · obtain ⟨y, hy, e⟩ := hg.exists_eq hx
      refine ⟨y, e, ?_, ?_⟩
      · intro hlo hxp
        rcases hD with hD | hD
        · exact hD y hy
        · exact absurd (hD x hx).1 (by omega)
      · intro hpx hhi
        rcases hD with hD | hD
        · exact absurd (hD x hx).2 (by omega)
        · exact hD y hy
    · exact ⟨x, hg.eq_of_not hx, fun h₁ h₂ => ⟨h₁, h₂⟩, fun h₁ h₂ => ⟨h₁, h₂⟩⟩
  constructor
  · intro x hx hxp
    obtain ⟨y, e, hy, _⟩ := hstill x
    rw [hp, e]
    exact h.before y (hy hx hxp).1 (hy hx hxp).2
  · intro x hx hxh
    obtain ⟨y, e, _, hy⟩ := hstill x
    rw [hp, e]
    exact h.behind y (hy hx hxh).1 (hy hx hxh).2

namespace Sortable

variable {σ : Type} {slots : Slots σ} {first n : Nat} {Shows : σ → (Nat → Value) → Prop}
  {V : Value → Prop} {lt : Value → Value → Bool} {E : Error → σ → Prop}

theorem medianToMiddle (h : Sortable slots first n Shows V lt E) (f : Nat → Value) {lo mid hi : Nat}
    (hlo : first ≤ lo) (hmid : lo < mid) (hle : mid < hi) (hhi : hi ≤ n) :
    Brings Shows E f (slots.medianToMiddle lo mid hi) (fun _ g =>
      Arranged (Within lo hi) f g ∧ lt (g mid) (g lo) = false ∧ lt (g hi) (g mid) = false) := by
  have hl : first ≤ lo ∧ lo ≤ n := ⟨hlo, by omega⟩
  have hm : first ≤ mid ∧ mid ≤ n := ⟨by omega, by omega⟩
  have hh : first ≤ hi ∧ hi ≤ n := ⟨by omega, hhi⟩
  have hlow : Within lo hi lo := ⟨Nat.le_refl lo, by omega⟩
  have hmiddle : Within lo hi mid := ⟨by omega, by omega⟩
  have hhigh : Within lo hi hi := ⟨by omega, Nat.le_refl hi⟩
  have hexchange : ∀ (f g : Nat → Value), g = f ∨ g = exchanged f mid lo →
      Arranged (Within lo hi) f g := by
    intro f g hg
    rcases hg with rfl | rfl
    · exact Arranged.refl _ _
    · exact Arranged.exchanged f hmiddle hlow
  refine Brings.bind (h.swapIfLess f hm hl) ?_
  intro _ g hg
  refine h.of_values fun hV => ?_
  refine Brings.bind_known (h.lessAt g hh hm) ?_
  refine Brings.ite (fun hless => ?_) fun hless =>
    Brings.pure ⟨hexchange f g hg.2, hg.1, hless⟩
  refine Brings.bind_to (h.exchange g hh hm) fun _ => ?_
  refine (h.swapIfLess _ hm hl).mono fun _ k hk => ⟨?_, hk.1, ?_⟩
  · refine (hexchange f g hg.2).trans (Arranged.trans ?_ (hexchange _ k hk.2))
    exact Arranged.exchanged g hhigh hmiddle
  · rcases hk.2 with rfl | rfl
    · rw [exchanged_left, exchanged_right]
      exact h.strictWeak.asymm (hV hi hh.1 hh.2) (hV mid hm.1 hm.2) hless
    · rw [exchanged_left, exchanged_of_ne _ (by omega) (by omega), exchanged_left,
        exchanged_of_ne _ (by omega) (by omega)]
      exact hg.1

theorem scanUp (h : Sortable slots first n Shows V lt E) (f : Nat → Value) {pivot : Value}
    (hp : V pivot) (room : Nat) : ∀ i, first ≤ i → i + room ≤ n + 1 →
      Brings Shows E f (slots.scanUp pivot room i) (fun i' g => g = f ∧ i ≤ i' ∧ i' ≤ i + room ∧
        (∀ x, i ≤ x → x < i' → lt (f x) pivot = true) ∧
        (i' < i + room → lt (f i') pivot = false)) := by
  induction room with
  | zero =>
    intro i _ _
    refine Brings.pure ⟨rfl, Nat.le_refl i, Nat.le_refl i, fun x hx hxi => ?_, fun hlt => ?_⟩
    · exact absurd hxi (by omega)
    · exact absurd hlt (Nat.lt_irrefl i)
  | succ room ih =>
    intro i hi hn
    refine h.of_values fun hV => ?_
    refine Brings.bind_known (h.read f ⟨hi, by omega⟩) ?_
    refine Brings.bind_known (h.ask f (hV i hi (by omega)) hp) ?_
    refine Brings.ite (fun hless => ?_) fun hless => Brings.pure ⟨rfl, Nat.le_refl i, by omega,
      fun x hx hxi => absurd hxi (by omega), fun _ => hless⟩
    refine (ih (i + 1) (by omega) (by omega)).mono fun i' k hk => ?_
    obtain ⟨e, h₁, h₂, hpassed, hstop⟩ := hk
    refine ⟨e, by omega, by omega, fun x hx hxi => ?_, fun hlt => hstop (by omega)⟩
    by_cases hxi' : x = i
    · exact hxi' ▸ hless
    · exact hpassed x (by omega) hxi

theorem scanDown (h : Sortable slots first n Shows V lt E) (f : Nat → Value) {pivot : Value}
    (hp : V pivot) (room : Nat) : ∀ j, first + room ≤ j → j ≤ n →
      Brings Shows E f (slots.scanDown pivot room j) (fun j' g => g = f ∧ j' ≤ j ∧ j ≤ j' + room ∧
        (∀ x, j' < x → x ≤ j → lt pivot (f x) = true) ∧
        (j < j' + room → lt pivot (f j') = false)) := by
  induction room with
  | zero =>
    intro j _ _
    refine Brings.pure ⟨rfl, Nat.le_refl j, Nat.le_refl j, fun x hx hxj => ?_, fun hlt => ?_⟩
    · exact absurd hxj (by omega)
    · exact absurd hlt (Nat.lt_irrefl j)
  | succ room ih =>
    intro j hj hn
    refine h.of_values fun hV => ?_
    refine Brings.bind_known (h.read f ⟨by omega, hn⟩) ?_
    refine Brings.bind_known (h.ask f hp (hV j (by omega) hn)) ?_
    refine Brings.ite (fun hless => ?_) fun hless => Brings.pure ⟨rfl, Nat.le_refl j, by omega,
      fun x hx hxj => absurd hxj (by omega), fun _ => hless⟩
    refine (ih (j - 1) (by omega) (by omega)).mono fun j' k hk => ?_
    obtain ⟨e, h₁, h₂, hpassed, hstop⟩ := hk
    refine ⟨e, by omega, by omega, fun x hx hxj => ?_, fun hlt => hstop (by omega)⟩
    by_cases hxj' : x = j
    · exact hxj' ▸ hless
    · exact hpassed x hx (by omega)

/-- The pivot is parked in the slot `top`.  The left cursor ends where the pivot belongs; only places
between `lo` and `top` are touched. -/
theorem cross (h : Sortable slots first n Shows V lt E) {pivot : Value} (hp : V pivot) {lo top : Nat}
    (hlo : first ≤ lo) (htop : top ≤ n) (laps : Nat) : ∀ i j f, lo ≤ i → i < top → lo < j → j ≤ top →
      top ≤ laps + i → Crossing lt pivot lo top i j f →
      Brings Shows E f (slots.cross pivot lo top laps i j) (fun p g => (i < p ∧ p ≤ top) ∧
        Arranged (fun x => lo < x ∧ x < top) f g ∧
        (∀ x, lo ≤ x → x < p → lt pivot (g x) = false) ∧
        ∀ x, p ≤ x → x ≤ top → lt (g x) pivot = false) := by
  induction laps with
  | zero =>
    intro i j f _ hi _ _ hlaps _
    exact absurd hlaps (by omega)
  | succ laps ih =>
    intro i j f hli hi hlj hj hlaps hf
    refine h.of_values fun hV => ?_
    refine Brings.bind (h.scanUp f hp (top - (i + 1)) (i + 1) (by omega) (by omega)) ?_
    intro i' g hup
    obtain ⟨rfl, hi₁, hi₂, hup, hi'⟩ := hup
    refine Brings.bind (h.scanDown _ hp (j - 1 - lo) (j - 1) (by omega) (by omega)) ?_
    intro j' g hdown
    obtain ⟨rfl, hj₁, hj₂, hdown, hj'⟩ := hdown
    have hup : ∀ x, i < x → x < i' → lt pivot (g x) = false := fun x hx hxi =>
      h.strictWeak.asymm (hV x (by omega) (by omega)) hp (hup x (by omega) hxi)
    have hdown : ∀ x, j' < x → x < j → lt (g x) pivot = false := fun x hx hxj =>
      h.strictWeak.asymm hp (hV x (by omega) (by omega)) (hdown x hx (by omega))
    -- a cursor that has run to the end of its side stops at a value known from the start
    have hi' : lt (g i') pivot = false := by
      by_cases he : i' = top
      · rw [he, hf.parked]
        exact h.strictWeak.irrefl pivot hp
      · exact hi' (by omega)
    have hj' : lt pivot (g j') = false := by
      by_cases he : j' = lo
      · exact hf.left j' (by omega) (by omega)
      · exact hj' (by omega)
    by_cases hcross : j' < i'
    · simp only [if_pos hcross]
      refine Brings.pure ⟨⟨by omega, by omega⟩, Arranged.refl _ _, ?_, ?_⟩
      · intro x hx hxi
        by_cases hxi' : x ≤ i
        · exact hf.left x hx hxi'
        · exact hup x (by omega) hxi
      · intro x hx hxt
        by_cases hxj : j ≤ x
        · exact hf.right x hxj hxt
        · exact hdown x (by omega) (by omega)
    · simp only [if_neg hcross]
      refine Brings.bind_to (h.exchange g ⟨by omega, by omega⟩ ⟨by omega, by omega⟩) fun _ => ?_
      have hnext := hf.exchanged hup hi' hdown hj' (by omega) (by omega)
      refine (ih i' j' _ (by omega) (by omega) (by omega) (by omega) (by omega) hnext).mono ?_
      intro p k hk
      refine ⟨⟨by omega, hk.1.2⟩, Arranged.trans ?_ hk.2.1, hk.2.2⟩
      exact Arranged.exchanged _ ⟨by omega, by omega⟩ ⟨by omega, by omega⟩

theorem partition (h : Sortable slots first n Shows V lt E) (f : Nat → Value) {lo hi : Nat}
    (hlo : first ≤ lo) (hle : lo + 2 ≤ hi) (hhi : hi ≤ n) :
    Brings Shows E f (slots.partition lo hi) (fun p g =>
      (lo < p ∧ p < hi) ∧ Arranged (Within lo hi) f g ∧ Split lt lo p hi g) := by
  have hmid : lo < lo + (hi - lo) / 2 ∧ lo + (hi - lo) / 2 < hi := by omega
  unfold Slots.partition
  generalize lo + (hi - lo) / 2 = mid at hmid
  refine Brings.bind (h.medianToMiddle f hlo hmid.1 hmid.2 hhi) ?_
  intro _ f₁ hf₁
  obtain ⟨hperm₁, hlow, hhigh⟩ := hf₁
  refine h.of_values fun hV => ?_
  have hp : V (f₁ mid) := hV mid (by omega) (by omega)
  refine Brings.bind_known (h.read f₁ ⟨by omega, by omega⟩) ?_
  refine Brings.bind (h.exchange _ ⟨by omega, by omega⟩ ⟨by omega, by omega⟩) ?_
  intro _ f₂ hf₂
  have hpark : f₂ (hi - 1) = f₁ mid := by rw [hf₂, exchanged_right]
  have hlo₂ : f₂ lo = f₁ lo := by rw [hf₂, exchanged_of_ne _ (by omega) (by omega)]
  have hhi₂ : f₂ hi = f₁ hi := by rw [hf₂, exchanged_of_ne _ (by omega) (by omega)]
  have hperm₂ : Arranged (Within lo hi) f₁ f₂ :=
    hf₂ ▸ Arranged.exchanged f₁ ⟨by omega, by omega⟩ ⟨by omega, by omega⟩
  have hstart : Crossing lt (f₁ mid) lo (hi - 1) lo (hi - 1) f₂ := by
    refine ⟨fun x hx hxl => ?_, fun x hx hxt => ?_, hpark⟩
    · rw [show x = lo by omega, hlo₂]
      exact hlow
    · rw [show x = hi - 1 by omega, hpark]
      exact h.strictWeak.irrefl _ hp
  refine Brings.bind (h.cross hp hlo (by omega) (hi - lo) lo (hi - 1) f₂ (Nat.le_refl lo)
    (by omega) (by omega) (Nat.le_refl _) (by omega) hstart) ?_
  intro p f₃ hf₃
  obtain ⟨hplace, hperm₃, hleft, hright⟩ := hf₃
  have hpark₃ : f₃ (hi - 1) = f₁ mid := by rw [hperm₃.eq_of_not (by omega), hpark]
  have hhi₃ : f₃ hi = f₁ hi := by rw [hperm₃.eq_of_not (by omega), hhi₂]
  refine Brings.bind (h.exchange f₃ ⟨by omega, by omega⟩ ⟨by omega, by omega⟩) ?_
  intro _ f₄ hf₄
  subst hf₄
  refine Brings.pure ⟨⟨hplace.1, by omega⟩, ?_, ?_, ?_⟩
  · have hperm₃ : Arranged (Within lo hi) f₂ f₃ := hperm₃.mono fun x hx => ⟨by omega, by omega⟩
    refine ((hperm₁.trans hperm₂).trans hperm₃).trans ?_
    exact Arranged.exchanged f₃ ⟨by omega, by omega⟩ ⟨by omega, by omega⟩
  · intro x hx hxp
    rw [exchanged_right, hpark₃, exchanged_of_ne _ (by omega) (by omega)]
    exact hleft x hx hxp
  · intro x hx hxh
    rw [exchanged_right, hpark₃]
    by_cases hxt : x = hi - 1
    · rw [hxt, exchanged_left]
      exact hright p (Nat.le_refl p) hplace.2
    · rw [exchanged_of_ne _ hxt (by omega)]
      by_cases hxhi : x = hi
      · rw [hxhi, hhi₃]
        exact hhigh
      · exact hright x (by omega) (by omega)

end Sortable

end Slots

end ScriptTables
