import Mathlib.Data.List.Nodup

/-!
# Doubly linked lists

Cells that hold a pointer to the next and to the previous cell. `IsList next prev head l` says that
the cells of `l`, in that order, are the list that begins at `head`: every cell points to its two
neighbours in `l`.

Putting a cell in front (`IsList.push`) and taking a cell out (`IsList.remove`) are stated for any
`next'` and `prev'` that have the right values at the cells of the new list, so that they apply
however the writes are made.
-/

namespace Dll

variable {α : Type} {next prev next' prev' : α → Option α} {head : Option α} {l l₁ l₂ : List α}
  {a b : α}

/-- The list from `head` on consists of the cells of `l`. -/
structure IsList (next prev : α → Option α) (head : Option α) (l : List α) : Prop where
  head_eq : head = l.head?
  links : ∀ l₁ a l₂, l = l₁ ++ a :: l₂ → next a = l₂.head? ∧ prev a = l₁.getLast?

theorem IsList.singleton (hn : next a = none) (hp : prev a = none) :
    IsList next prev (some a) [a] where
  head_eq := rfl
  links := fun l₁ b l₂ h => by
    obtain ⟨rfl, rfl, rfl⟩ : l₁ = [] ∧ a = b ∧ l₂ = [] := by
      cases l₁ with
      | nil => simpa using h
      | cons c l₁ => simp at h
    exact ⟨hn, hp⟩

/-- Only the links of the cells count. -/
theorem IsList.congr (h : IsList next prev head l) (hn : ∀ a ∈ l, next' a = next a)
    (hp : ∀ a ∈ l, prev' a = prev a) : IsList next' prev' head l where
  head_eq := h.head_eq
  links := fun l₁ a l₂ he => by
    have ha : a ∈ l := by rw [he]; simp
    rw [hn a ha, hp a ha]
    exact h.links l₁ a l₂ he

/-! ## Following the links -/

/-- The cells met on the way from a pointer along the links, at most `n`. -/
def follow (link : α → Option α) : Nat → Option α → List α
  | 0, _ | _, none => []
  | n + 1, some a => a :: follow link n (link a)

theorem IsList.follow_next_from {n : Nat} (l₁ : List α) (h : IsList next prev head (l₁ ++ l₂))
    (hn : l₂.length ≤ n) : follow next n l₂.head? = l₂ := by
  induction n generalizing l₁ l₂ with
  | zero => simp [follow, List.length_eq_zero_iff.mp (Nat.le_zero.mp hn)]
  | succ n ih =>
    cases l₂ with
    | nil => rfl
    | cons a l₂ =>
      have hrest : IsList next prev head ((l₁ ++ [a]) ++ l₂) := by simpa using h
      rw [List.head?_cons, follow, (h.links l₁ a l₂ rfl).1, ih _ hrest (by simpa using hn)]

/-- The links to the next cell lead through the list and to its end. -/
theorem IsList.follow_next {n : Nat} (h : IsList next prev head l) (hn : l.length ≤ n) :
    follow next n head = l := by
  rw [h.head_eq]
  exact h.follow_next_from [] hn

theorem IsList.follow_prev_from {n : Nat} (l₂ : List α) (h : IsList next prev head (l₁ ++ l₂))
    (hn : l₁.length ≤ n) : follow prev n l₁.getLast? = l₁.reverse := by
  induction n generalizing l₁ l₂ with
  | zero => simp [follow, List.length_eq_zero_iff.mp (Nat.le_zero.mp hn)]
  | succ n ih =>
    obtain rfl | ⟨l₁, a, rfl⟩ := List.eq_nil_or_concat' l₁
    · rfl
    · have hrest : IsList next prev head (l₁ ++ a :: l₂) := by simpa using h
      rw [List.getLast?_concat, follow, (hrest.links l₁ a l₂ rfl).2,
        ih _ hrest (by simpa using hn)]
      simp

/-- The links to the previous cell lead back from the last one to the first. -/
theorem IsList.follow_prev {n : Nat} (h : IsList next prev head l) (hn : l.length ≤ n) :
    follow prev n l.getLast? = l.reverse :=
  IsList.follow_prev_from [] (by simpa using h) hn

/-! ## Changing the list -/

variable [DecidableEq α]

/-- Putting a cell in front. -/
theorem IsList.push (h : IsList next prev head l) (hnd : l.Nodup)
    (hna : next' a = head) (hpa : prev' a = none)
    (hn : ∀ b ∈ l, next' b = next b)
    (hp : ∀ b ∈ l, prev' b = if head = some b then some a else prev b) :
    IsList next' prev' (some a) (a :: l) where
  head_eq := rfl
  links := fun l₁ b l₂ he => by
    cases l₁ with
    | nil =>
      obtain ⟨rfl, rfl⟩ : a = b ∧ l = l₂ := by simpa using he
      exact ⟨hna.trans h.head_eq, hpa⟩
    | cons c l₁ =>
      obtain ⟨rfl, rfl⟩ : a = c ∧ l = l₁ ++ b :: l₂ := by simpa using he
      have hb : b ∈ l₁ ++ b :: l₂ := by simp
      obtain ⟨hnext, hprev⟩ := h.links l₁ b l₂ rfl
      refine ⟨(hn b hb).trans hnext, (hp b hb).trans ?_⟩
      rw [h.head_eq]
      cases l₁ with
      | nil => simp
      | cons d l₁ =>
        -- The first cell is another one, as no cell is in the list twice.
        have hne : d ≠ b := by
          rintro rfl
          simp at hnd
        rw [hprev, if_neg (by simpa using hne)]
        simp [List.getLast?_cons]

/-- Taking a cell out: the cell before it now points to the one after it, and the other way
round. -/
theorem IsList.remove (h : IsList next prev head (l₁ ++ a :: l₂)) (hnd : (l₁ ++ a :: l₂).Nodup)
    (hn : ∀ b ∈ l₁ ++ l₂, next' b = if l₁.getLast? = some b then l₂.head? else next b)
    (hp : ∀ b ∈ l₁ ++ l₂, prev' b = if l₂.head? = some b then l₁.getLast? else prev b) :
    IsList next' prev' (l₁ ++ l₂).head? (l₁ ++ l₂) where
  head_eq := rfl
  links := fun m₁ b m₂ he => by
    have hb : b ∈ l₁ ++ l₂ := by rw [he]; simp
    obtain ⟨hnd₁, hnd₂, hdisj⟩ := List.nodup_append.mp hnd
    rw [hn b hb, hp b hb]
    rcases List.append_eq_append_iff.mp he with ⟨k, rfl, hk⟩ | ⟨k, rfl, hk⟩
    · -- The cell is behind the one that goes.
      obtain rfl : l₂ = k ++ b :: m₂ := hk
      obtain ⟨hnext, hprev⟩ := h.links (l₁ ++ a :: k) b m₂ (by simp)
      have hlast : l₁.getLast? ≠ some b := fun hl =>
        hdisj b (List.mem_of_getLast? hl) b (by simp) rfl
      rw [if_neg hlast, hnext, hprev]
      refine ⟨rfl, ?_⟩
      cases k with
      | nil => simp
      | cons c k =>
        have hne : c ≠ b := by
          rintro rfl
          simp at hnd₂
        rw [if_neg (by simpa using hne)]
        simp [List.getLast?_append, List.getLast?_cons]
    · cases k with
      | nil =>
        obtain rfl : b :: m₂ = l₂ := by simpa using hk
        obtain ⟨hnext, hprev⟩ := h.links (m₁ ++ [a]) b m₂ (by simp)
        have hlast : m₁.getLast? ≠ some b := fun hl =>
          hdisj b (by simpa using List.mem_of_getLast? hl) b (by simp) rfl
        simp only [List.append_nil]
        rw [if_neg hlast, hnext]
        simp
      | cons c k =>
        -- The cell is in front of the one that goes.
        obtain ⟨rfl, rfl⟩ : b = c ∧ m₂ = k ++ l₂ := by simpa using hk
        obtain ⟨hnext, hprev⟩ := h.links m₁ b (k ++ a :: l₂) (by simp)
        have hhead : l₂.head? ≠ some b := fun hl =>
          hdisj b (by simp) b (by simp [List.mem_of_head? hl]) rfl
        rw [if_neg hhead, hprev]
        refine ⟨?_, rfl⟩
        cases k with
        | nil => simp
        | cons d k =>
          have hne : (m₁ ++ b :: d :: k).getLast? ≠ some b := fun hl => by
            have hl' : (d :: k).getLast? = some b := by
              simpa [List.getLast?_append, List.getLast?_cons] using hl
            have hmem := List.mem_of_getLast? hl'
            have := (List.nodup_append.mp hnd₁).2.1
            exact (List.nodup_cons.mp this).1 hmem
          rw [if_neg hne, hnext]
          simp

end Dll
