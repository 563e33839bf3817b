import Mathlib.Data.Finset.Insert
import Mathlib.Data.Finset.Erase

/-!
# Rings in order

A circular list that is kept in ascending order: each element leads to the next greater one, and the
greatest to the least. It is enough to know of every element that none of the others lies on the way
to the one it leads to (`SortedRing`).

* `Between p q b` : on the way from `p` up to `q`, round the end if need be, one comes past `b`
* `SortedRing next s` : the elements of `s` lead round in order
* `Packed len s` : each element of `s` is the start of an interval that ends before the next one
-/

namespace SortedRings

variable {α : Type} [LinearOrder α] {next next' : α → α} {s : Finset α} {p q r b : α}

/-- On the way from `p` to `q` one comes past `b`. -/
def Between (p q b : α) : Prop := p < b ∧ b < q ∨ q ≤ p ∧ (p < b ∨ b < q)

/-- The elements of `s` lead round in order. -/
def SortedRing (next : α → α) (s : Finset α) : Prop :=
  ∀ p ∈ s, next p ∈ s ∧ ∀ r ∈ s, ¬ Between p (next p) r

theorem sortedRing_singleton (h : next p = p) : SortedRing next {p} := by
  intro q hq
  obtain rfl := Finset.mem_singleton.mp hq
  refine ⟨by simp [h], fun r hr => ?_⟩
  obtain rfl := Finset.mem_singleton.mp hr
  simp [Between]

namespace SortedRing

/-- Only where the elements lead counts. -/
theorem congr (h : SortedRing next s) (hn : ∀ p ∈ s, next' p = next p) : SortedRing next' s := by
  intro p hp
  rw [hn p hp]
  exact h p hp

theorem iterate_mem (h : SortedRing next s) (hp : p ∈ s) (n : Nat) : next^[n] p ∈ s := by
  induction n with
  | zero => exact hp
  | succ n ih =>
    rw [Function.iterate_succ_apply']
    exact (h _ ih).1

/-- What lies between is not on the ring. -/
theorem notMem_of_between (h : SortedRing next s) (hp : p ∈ s) (hb : Between p (next p) b) :
    b ∉ s := fun hmem => (h p hp).2 b hmem hb

/-- Different elements lead to different ones. -/
theorem injective (h : SortedRing next s) (hp : p ∈ s) (hq : q ∈ s) (he : next p = next q) :
    p = q := by
  have hpq := (h p hp).2 q hq
  have hqp := (h q hq).2 p hp
  rw [he] at hpq
  unfold Between at hpq hqp
  grind

/-- An element leads to itself only if it is alone. -/
theorem next_ne_self (h : SortedRing next s) (hp : p ∈ s) (hq : q ∈ s) (hne : p ≠ q) :
    next p ≠ p := by
  intro he
  have hpq := (h p hp).2 q hq
  rw [he] at hpq
  unfold Between at hpq
  grind

/-- Putting an element where it belongs. -/
theorem insert (h : SortedRing next s) (hp : p ∈ s) (hb : Between p (next p) b) :
    SortedRing (Function.update (Function.update next b (next p)) p b) (insert b s) := by
  have hbs := h.notMem_of_between hp hb
  have hbp : b ≠ p := fun he => hbs (he ▸ hp)
  intro x hmem
  rcases Finset.mem_insert.mp hmem with rfl | hx
  · rw [Function.update_of_ne hbp, Function.update_self]
    refine ⟨Finset.mem_insert_of_mem (h p hp).1, fun r hr => ?_⟩
    rcases Finset.mem_insert.mp hr with rfl | hr
    · unfold Between
      grind
    · have hpr := (h p hp).2 r hr
      unfold Between at *
      grind
  · by_cases hxp : x = p
    · subst hxp
      rw [Function.update_self]
      refine ⟨Finset.mem_insert_self .., fun r hr => ?_⟩
      rcases Finset.mem_insert.mp hr with rfl | hr
      · unfold Between
        grind
      · have hpr := (h x hp).2 r hr
        unfold Between at *
        grind
    · have hxb : x ≠ b := fun he => hbs (he ▸ hx)
      rw [Function.update_of_ne hxp, Function.update_of_ne hxb]
      refine ⟨Finset.mem_insert_of_mem (h x hx).1, fun r hr => ?_⟩
      rcases Finset.mem_insert.mp hr with rfl | hr
      · have h1 := (h x hx).2 p hp
        have h2 := (h x hx).2 (next p) (h p hp).1
        have h3 := (h p hp).2 x hx
        have h4 := (h p hp).2 (next x) (h x hx).1
        unfold Between at *
        grind
      · exact (h x hx).2 r hr

/-- Taking out the element after `p`. -/
theorem remove (h : SortedRing next s) (hp : p ∈ s) (hne : next p ≠ p) :
    SortedRing (Function.update next p (next (next p))) (s.erase (next p)) := by
  have hq := (h p hp).1
  intro x hmem
  obtain ⟨hxq, hx⟩ := Finset.mem_erase.mp hmem
  by_cases hxp : x = p
  · subst hxp
    rw [Function.update_self]
    refine ⟨Finset.mem_erase.mpr ⟨h.next_ne_self hq hx hne, (h _ hq).1⟩, fun r hr => ?_⟩
    obtain ⟨hrq, hr⟩ := Finset.mem_erase.mp hr
    have h1 := (h x hx).2 r hr
    have h2 := (h _ hq).2 r hr
    have h3 := (h _ hq).2 x hx
    unfold Between at *
    grind
  · rw [Function.update_of_ne hxp]
    refine ⟨Finset.mem_erase.mpr ⟨fun he => hxp (h.injective hx hp he), (h x hx).1⟩, fun r hr => ?_⟩
    exact (h x hx).2 r (Finset.mem_erase.mp hr).2

end SortedRing

/-! ## Intervals -/

variable {len len' : Nat → Nat} {t : Finset Nat} {x y n : Nat}

/-- The intervals of length `len x` from `x` on do not reach into each other. -/
def Packed (len : Nat → Nat) (t : Finset Nat) : Prop := ∀ x ∈ t, ∀ y ∈ t, x < y → x + len x ≤ y

namespace Packed

theorem congr (h : Packed len t) (hl : ∀ x ∈ t, len' x = len x) : Packed len' t := by
  intro x hx y hy hlt
  rw [hl x hx]
  exact h x hx y hy hlt

theorem mono {t' : Finset Nat} (h : Packed len t) (hsub : t' ⊆ t) : Packed len t' :=
  fun x hx y hy => h x (hsub hx) y (hsub hy)

/-- Joining two intervals that meet. -/
theorem join (h : Packed len t) (hx : x ∈ t) (hy : y ∈ t) (hmeet : x + len x = y) :
    Packed (Function.update len x (len x + len y)) (t.erase y) := by
  intro a ha b hb hlt
  obtain ⟨hay, ha⟩ := Finset.mem_erase.mp ha
  obtain ⟨hby, hb⟩ := Finset.mem_erase.mp hb
  by_cases hax : a = x
  · subst hax
    rw [Function.update_self]
    have h1 := h a ha b hb hlt
    have h2 := h y hy b hb (by omega)
    omega
  · rw [Function.update_of_ne hax]
    exact h a ha b hb hlt

/-- Splitting an interval after the first `n`. -/
theorem split (h : Packed len t) (hx : x ∈ t) (hpos : 0 < n) (hn : n < len x) :
    x + n ∉ t ∧
      Packed (Function.update (Function.update len (x + n) (len x - n)) x n)
        (insert (x + n) t) := by
  have hnew : x + n ∉ t := fun hmem => by
    have := h x hx _ hmem (by omega)
    omega
  refine ⟨hnew, fun a ha b hb hlt => ?_⟩
  by_cases hax : a = x
  · subst hax
    rw [Function.update_self]
    rcases Finset.mem_insert.mp hb with rfl | hb
    · omega
    · have := h a hx b hb hlt
      omega
  · rw [Function.update_of_ne hax]
    rcases Finset.mem_insert.mp ha with rfl | ha
    · rw [Function.update_self]
      rcases Finset.mem_insert.mp hb with rfl | hb
      · omega
      · have := h x hx b hb (by omega)
        omega
    · have hane : a ≠ x + n := fun he => hnew (he ▸ ha)
      rw [Function.update_of_ne hane]
      rcases Finset.mem_insert.mp hb with rfl | hb
      · -- An interval that starts before the place of the split ends before the one that is split.
        rcases Nat.lt_or_gt_of_ne hax with hlt' | hgt
        · have := h a ha x hx hlt'
          omega
        · have := h x hx a ha hgt
          omega
      · exact h a ha b hb hlt

end Packed

end SortedRings
