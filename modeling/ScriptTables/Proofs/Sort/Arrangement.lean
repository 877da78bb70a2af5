import Mathlib.Logic.Equiv.Basic
import Mathlib.Data.List.Nodup

/-!
# Arrangements and their order

An arrangement tells what stands at which place.  A sort only ever exchanges the values of two places,
so what it leaves is the old arrangement with some places permuted.

* `exchanged f i j`     two places exchanged;
* `Arranged D f g`      `g` is `f` with the places in `D` permuted and all others as they were;
* `StrictWeak V lt`     `lt` is a strict weak order of the values in `V`;
* `Ordered lt lo hi f`  no value of the places `lo, ..., hi` belongs before one that stands before it.
-/

namespace ScriptTables

section
variable {α : Type}

/-! ## exchanging -/

def exchanged (f : Nat → α) (i j : Nat) : Nat → α :=
  fun k => if k = i then f j else if k = j then f i else f k

theorem exchanged_left (f : Nat → α) (i j : Nat) : exchanged f i j i = f j := if_pos rfl

theorem exchanged_right (f : Nat → α) (i j : Nat) : exchanged f i j j = f i := by
  unfold exchanged
  by_cases h : j = i
  · rw [if_pos h, h]
  · rw [if_neg h, if_pos rfl]

theorem exchanged_of_ne (f : Nat → α) {i j k : Nat} (hi : k ≠ i) (hj : k ≠ j) :
    exchanged f i j k = f k := by
  rw [exchanged, if_neg hi, if_neg hj]

/-! ## arrangements -/

def Arranged (D : Nat → Prop) (f g : Nat → α) : Prop :=
  ∃ π : Equiv.Perm Nat, (∀ i, ¬D i → π i = i) ∧ ∀ i, g i = f (π i)

section
variable {D D' : Nat → Prop} {f g k : Nat → α}

theorem Arranged.refl (D : Nat → Prop) (f : Nat → α) : Arranged D f f :=
  ⟨Equiv.refl Nat, fun _ _ => rfl, fun _ => rfl⟩

theorem Arranged.trans (h : Arranged D f g) (h' : Arranged D g k) : Arranged D f k := by
  obtain ⟨π, hπ, hg⟩ := h
  obtain ⟨ρ, hρ, hk⟩ := h'
  refine ⟨ρ.trans π, fun i hi => ?_, fun i => ?_⟩
  · show π (ρ i) = i
    rw [hρ i hi, hπ i hi]
  · show k i = f (π (ρ i))
    rw [hk, hg]

theorem Arranged.mono (h : Arranged D f g) (hD : ∀ i, D i → D' i) : Arranged D' f g := by
  obtain ⟨π, hπ, hg⟩ := h
  exact ⟨π, fun i hi => hπ i (fun hd => hi (hD i hd)), hg⟩

theorem Arranged.exchanged (f : Nat → α) {i j : Nat} (hi : D i) (hj : D j) :
    Arranged D f (exchanged f i j) := by
  refine ⟨Equiv.swap i j, fun k hk => ?_, fun k => ?_⟩
  · exact Equiv.swap_apply_of_ne_of_ne (fun e => hk (e ▸ hi)) (fun e => hk (e ▸ hj))
  · rw [Equiv.swap_apply_def, ScriptTables.exchanged]
    split
    · rfl
    · split <;> rfl

theorem Arranged.eq_of_not (h : Arranged D f g) {i : Nat} (hi : ¬D i) : g i = f i := by
  obtain ⟨π, hπ, hg⟩ := h
  rw [hg, hπ i hi]

theorem Arranged.exists_eq (h : Arranged D f g) {i : Nat} (hi : D i) : ∃ j, D j ∧ g i = f j := by
  obtain ⟨π, hπ, hg⟩ := h
  refine ⟨π i, ?_, hg i⟩
  by_contra hn
  exact hn ((π.injective (hπ (π i) hn)).symm ▸ hi)

theorem Arranged.forall_of {P : α → Prop} (h : Arranged D f g) (hf : ∀ i, D i → P (f i)) :
    ∀ i, D i → P (g i) := by
  intro i hi
  obtain ⟨j, hj, e⟩ := h.exists_eq hi
  exact e ▸ hf j hj

theorem Arranged.map_perm (h : Arranged D f g) {places : List Nat} (hnd : places.Nodup)
    (hD : ∀ i, i ∈ places ↔ D i) : (places.map g).Perm (places.map f) := by
  obtain ⟨π, hπ, hg⟩ := h
  have hmap : places.map g = (places.map π).map f := by
    rw [List.map_map]
    exact List.map_congr_left fun i _ => hg i
  rw [hmap]
  refine List.Perm.map f ((List.perm_ext_iff_of_nodup (hnd.map π.injective) hnd).mpr fun i => ?_)
  have hπD : ∀ i, D (π i) ↔ D i := by
    intro i
    constructor
    · intro h
      by_contra hn
      exact hn (hπ i hn ▸ h)
    · intro h
      by_contra hn
      exact hn ((π.injective (hπ (π i) hn)).symm ▸ h)
  rw [List.mem_map, hD]
  constructor
  · intro hi
    obtain ⟨j, hj, rfl⟩ := hi
    exact (hπD j).mpr ((hD j).mp hj)
  · intro hi
    refine ⟨π.symm i, (hD _).mpr ((hπD _).mp ?_), π.apply_symm_apply i⟩
    rwa [π.apply_symm_apply]

end

/-! ## orders -/

structure StrictWeak (V : α → Prop) (lt : α → α → Bool) : Prop where
  irrefl : ∀ a, V a → lt a a = false
  trans : ∀ a b c, V a → V b → V c → lt a b = true → lt b c = true → lt a c = true
  /-- values of which neither is below the other stand alike to all others -/
  incomparable_trans : ∀ a b c, V a → V b → V c → lt a b = false → lt b a = false →
    lt b c = false → lt c b = false → lt a c = false

namespace StrictWeak

variable {V : α → Prop} {lt : α → α → Bool}

theorem mono {V' : α → Prop} (h : StrictWeak V lt) (hV : ∀ a, V' a → V a) : StrictWeak V' lt where
  irrefl a ha := h.irrefl a (hV a ha)
  trans a b c ha hb hc := h.trans a b c (hV a ha) (hV b hb) (hV c hc)
  incomparable_trans a b c ha hb hc := h.incomparable_trans a b c (hV a ha) (hV b hb) (hV c hc)

theorem asymm (h : StrictWeak V lt) {a b : α} (ha : V a) (hb : V b) (hab : lt a b = true) :
    lt b a = false := by
  by_contra hba
  have haa := h.trans a b a ha hb ha hab ((Bool.not_eq_false _).mp hba)
  rw [h.irrefl a ha] at haa
  exact Bool.false_ne_true haa

theorem not_lt_trans (h : StrictWeak V lt) {a b c : α} (ha : V a) (hb : V b) (hc : V c)
    (hba : lt b a = false) (hcb : lt c b = false) : lt c a = false := by
  by_contra hca
  have hca := (Bool.not_eq_false _).mp hca
  cases hab : lt a b with
  | true =>
    rw [h.trans c a b hc ha hb hca hab] at hcb
    exact Bool.false_ne_true hcb.symm
  | false =>
    cases hbc : lt b c with
    | true =>
      rw [h.trans b c a hb hc ha hbc hca] at hba
      exact Bool.false_ne_true hba.symm
    | false =>
      rw [h.incomparable_trans c b a hc hb ha hcb hbc hba hab] at hca
      exact Bool.false_ne_true hca

end StrictWeak

def Ordered (lt : α → α → Bool) (lo hi : Nat) (f : Nat → α) : Prop :=
  ∀ i j, lo ≤ i → i < j → j ≤ hi → lt (f j) (f i) = false

theorem Ordered.of_le (lt : α → α → Bool) {lo hi : Nat} (h : hi ≤ lo) (f : Nat → α) :
    Ordered lt lo hi f := fun i j hi hij hj => absurd hij (by omega)

/-- rearranging places outside of an ordered range leaves it ordered -/
theorem Ordered.arranged {lt : α → α → Bool} {lo hi : Nat} {f g : Nat → α}
    (h : Ordered lt lo hi f) {D : Nat → Prop} (hg : Arranged D f g)
    (hD : ∀ i, lo ≤ i → i ≤ hi → ¬D i) : Ordered lt lo hi g := by
  intro i j hi hij hj
  rw [hg.eq_of_not (hD i hi (by omega)), hg.eq_of_not (hD j (by omega) hj)]
  exact h i j hi hij hj

/-- two ordered ranges with a value between them that belongs between them -/
theorem Ordered.join {V : α → Prop} {lt : α → α → Bool} (hlt : StrictWeak V lt) {lo p hi : Nat}
    {f : Nat → α} (hV : ∀ i, lo ≤ i → i ≤ hi → V (f i)) (hp : lo ≤ p ∧ p ≤ hi)
    (hleft : ∀ i, lo ≤ i → i < p → lt (f p) (f i) = false)
    (hright : ∀ j, p < j → j ≤ hi → lt (f j) (f p) = false)
    (hlo : Ordered lt lo (p - 1) f) (hhi : Ordered lt (p + 1) hi f) : Ordered lt lo hi f := by
  have hacross : ∀ i j, lo ≤ i → i ≤ p → p ≤ j → j ≤ hi → i < j → lt (f j) (f i) = false := by
    intro i j hli hip hpj hjh hij
    by_cases hi' : i = p
    · exact hi' ▸ hright j (by omega) hjh
    · by_cases hj' : j = p
      · exact hj' ▸ hleft i hli (by omega)
      · exact hlt.not_lt_trans (hV i hli (by omega)) (hV p hp.1 hp.2) (hV j (by omega) hjh)
          (hleft i hli (by omega)) (hright j (by omega) hjh)
  intro i j hli hij hjh
  by_cases hjp : j < p
  · exact hlo i j hli hij (by omega)
  · by_cases hpi : p < i
    · exact hhi i j (by omega) hij hjh
    · exact hacross i j hli (by omega) (by omega) hjh hij

end

end ScriptTables
