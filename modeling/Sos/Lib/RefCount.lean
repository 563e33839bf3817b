import Mathlib.Algebra.BigOperators.Fin
import Mathlib.Algebra.Order.BigOperators.Group.Finset

/-!
# Counting references

Finitely many holders each hold at most one item. `count held P` is the number of holders of an item
with the property `P`, for instance of a reference to a given object. The lemmas say how the number
changes when one holder changes hands, and when a whole row of holders is emptied.
-/

namespace RefCount

variable {H A B T : Type} [Fintype H] [DecidableEq H] [Fintype A] [DecidableEq A] [Fintype B]
  [DecidableEq B] {held : H → Option T} {P : T → Bool} {h : H}

/-- 1 if there is an item with the property, else 0. -/
def mark (P : T → Bool) (x : Option T) : Nat := if x.any P then 1 else 0

@[simp] theorem mark_none : mark P none = 0 := rfl

/-- How many hold an item with the property. -/
def count (held : H → Option T) (P : T → Bool) : Nat := ∑ h, mark P (held h)

omit [DecidableEq H] in
theorem count_le (held : H → Option T) (P : T → Bool) : count held P ≤ Fintype.card H := by
  have hone : ∀ h ∈ Finset.univ, mark P (held h) ≤ 1 := by
    intro h _
    unfold mark
    split <;> omega
  have hsum := Finset.sum_le_card_nsmul Finset.univ (fun h => mark P (held h)) 1 hone
  rwa [smul_eq_mul, Nat.mul_one] at hsum

omit [DecidableEq H] in
theorem count_eq_zero_iff : count held P = 0 ↔ ∀ h x, held h = some x → P x = false := by
  unfold count
  rw [Finset.sum_eq_zero_iff]
  constructor
  · intro hz h x hx
    have := hz h (Finset.mem_univ h)
    simpa [mark, hx] using this
  · intro hz h _
    unfold mark
    cases hx : held h with
    | none => rfl
    | some x => simp [hz h x hx]

/-- One holder changes hands. -/
theorem count_update (held : H → Option T) (P : T → Bool) (h : H) (x : Option T) :
    count (Function.update held h x) P + mark P (held h) = count held P + mark P x := by
  unfold count
  rw [← Finset.add_sum_erase _ _ (Finset.mem_univ h),
    ← Finset.add_sum_erase _ (fun k => mark P (held k)) (Finset.mem_univ h), Function.update_self]
  have hrest : ∑ k ∈ Finset.univ.erase h, mark P (Function.update held h x k) =
      ∑ k ∈ Finset.univ.erase h, mark P (held k) :=
    Finset.sum_congr rfl fun k hk => by rw [Function.update_of_ne (Finset.ne_of_mem_erase hk)]
  omega

omit [DecidableEq B] in
/-- A row of holders is emptied. -/
theorem count_clear (held : A × B → Option T) (P : T → Bool) (a : A) :
    count (fun h => if h.1 = a then none else held h) P + ∑ b, mark P (held (a, b)) =
      count held P := by
  unfold count
  rw [Fintype.sum_prod_type, Fintype.sum_prod_type,
    ← Finset.add_sum_erase _ _ (Finset.mem_univ a),
    ← Finset.add_sum_erase _ (fun a => ∑ b, mark P (held (a, b))) (Finset.mem_univ a)]
  have hrow : ∑ b, mark P (if a = a then none else held (a, b)) = 0 := by simp
  have hrest : ∑ c ∈ Finset.univ.erase a, ∑ b, mark P (if c = a then none else held (c, b)) =
      ∑ c ∈ Finset.univ.erase a, ∑ b, mark P (held (c, b)) := by
    refine Finset.sum_congr rfl fun c hc => ?_
    simp only [if_neg (Finset.ne_of_mem_erase hc)]
  dsimp only
  omega

/-- The items in a row, as a list. -/
theorem sum_mark_eq_countP {n : Nat} (row : Fin n → Option T) (P : T → Bool) :
    ∑ b, mark P (row b) = ((List.finRange n).filterMap row).countP P := by
  rw [Fin.sum_univ_def]
  induction List.finRange n with
  | nil => rfl
  | cons i l ih =>
    rw [List.map_cons, List.sum_cons, ih]
    cases hi : row i with
    | none => simp [hi]
    | some x =>
      rw [List.filterMap_cons_some hi, List.countP_cons]
      simp [mark, Nat.add_comm]

end RefCount
