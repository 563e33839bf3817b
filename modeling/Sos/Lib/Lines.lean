import Mathlib.Data.List.DropRight

/-!
# Lines and words

A text as the lines that are ended by a separator, and a line as its words. The end of the text
after the last separator is no line; what is appended to the text goes on from there
(`lines_append`).
-/

namespace Lines

variable {α : Type*} [DecidableEq α] (a : α) {l s t : List α}

/-- The lines of a text that are ended by `a`. -/
def lines (s : List α) : List (List α) := (s.splitOn a).dropLast

/-- What follows the last `a`. -/
def unended (s : List α) : List α := s.rtakeWhile (· ≠ a)

/-- The words of a line, between the `a`s. -/
def words (l : List α) : List (List α) := (l.splitOn a).filter (· ≠ [])

variable {a}

theorem splitOn_of_notMem (h : a ∉ l) : l.splitOn a = [l] := by
  rw [List.splitOn, List.splitOnP_eq_singleton]
  intro b hb
  simpa using ne_of_mem_of_not_mem hb h

theorem splitOn_append_cons (s t : List α) :
    (s ++ a :: t).splitOn a = s.splitOn a ++ t.splitOn a :=
  List.splitOnP_append_cons s t (by simp)

theorem splitOn_ne_nil (s : List α) : s.splitOn a ≠ [] := List.splitOnP_ne_nil _ s

/-! ## Lines -/

theorem lines_of_notMem (h : a ∉ s) : lines a s = [] := by
  rw [lines, splitOn_of_notMem h, List.dropLast_singleton]

theorem lines_append_cons (s t : List α) : lines a (s ++ a :: t) = s.splitOn a ++ lines a t := by
  rw [lines, lines, splitOn_append_cons, List.dropLast_append_of_ne_nil (splitOn_ne_nil t)]

/-- The first line of a text is what stands before the first `a`. -/
theorem lines_cons (h : a ∉ l) (t : List α) : lines a (l ++ a :: t) = l :: lines a t := by
  rw [lines_append_cons, splitOn_of_notMem h, List.singleton_append]

theorem notMem_unended (s : List α) : a ∉ unended a s := by
  intro h
  have := List.mem_rtakeWhile_imp h
  simp at this

/-- A text is its end, or the end follows some lines. -/
theorem eq_unended_or (s : List α) :
    s = unended a s ∨ ∃ t, s = t ++ a :: unended a s := by
  have hs : s.rdropWhile (· ≠ a) ++ unended a s = s := List.rdropWhile_append_rtakeWhile
  rcases List.eq_nil_or_concat' (s.rdropWhile (· ≠ a)) with h | ⟨t, b, h⟩
  · left
    rw [h, List.nil_append] at hs
    exact hs.symm
  · right
    -- the last element dropped is no other than `a`
    have hne : s.rdropWhile (· ≠ a) ≠ [] := by
      rw [h]
      exact List.append_ne_nil_of_right_ne_nil _ (List.cons_ne_nil _ _)
    have hlast := List.rdropWhile_last_not _ s hne
    rw [List.getLast_congr hne (by simp) h, List.getLast_append_singleton] at hlast
    obtain rfl : b = a := by simpa using hlast
    refine ⟨t, ?_⟩
    rw [List.append_cons, ← h]
    exact hs.symm

theorem lines_append (s t : List α) :
    lines a (s ++ t) = lines a s ++ lines a (unended a s ++ t) := by
  rcases eq_unended_or (a := a) s with h | ⟨u, h⟩
  · have hs : a ∉ s := h ▸ notMem_unended s
    rw [lines_of_notMem hs, List.nil_append, ← h]
  · generalize hv : unended a s = v at h
    subst h
    have hv' : a ∉ v := hv ▸ notMem_unended _
    rw [List.append_assoc, List.cons_append, lines_append_cons, lines_append_cons,
      lines_of_notMem hv', List.append_nil]

/-- The text of the lines, with `s` in front of the first one. -/
theorem flatten_lines_append (hs : a ∉ s) (ht : a ∈ t) :
    (lines a (s ++ t)).flatten = s ++ (lines a t).flatten := by
  obtain ⟨l, u, rfl, hl⟩ := List.eq_append_cons_of_mem ht
  have hsl : a ∉ s ++ l := by simp [hs, hl]
  rw [← List.append_assoc, lines_cons hsl, lines_cons hl, List.flatten_cons, List.flatten_cons,
    List.append_assoc]

/-! ## Words -/

theorem words_of_notMem (h : a ∉ l) : words a l = if l = [] then [] else [l] := by
  rw [words, splitOn_of_notMem h, List.filter_singleton]
  by_cases hl : l = [] <;> simp [hl]

theorem words_append_cons (s t : List α) : words a (s ++ a :: t) = words a s ++ words a t := by
  rw [words, splitOn_append_cons, List.filter_append, words, words]

theorem words_cons_self (l : List α) : words a (a :: l) = words a l := by
  have h := words_append_cons (a := a) [] l
  rwa [words_of_notMem List.not_mem_nil, if_pos rfl] at h

theorem words_dropWhile (l : List α) : words a (l.dropWhile (· = a)) = words a l := by
  induction l with
  | nil => rfl
  | cons b l ih =>
    by_cases hb : b = a
    · rw [List.dropWhile_cons_of_pos (by simpa using hb), ih, hb, words_cons_self]
    · rw [List.dropWhile_cons_of_neg (by simpa using hb)]

theorem words_append_of_forall (hs : ∀ b ∈ s, b = a) (t : List α) :
    words a (s ++ t) = words a t := by
  rw [← words_dropWhile, List.dropWhile_append_of_pos (by simpa using hs), words_dropWhile]

/-- The first word, and the words after the separator that ends it. -/
theorem words_cons_of_ne {b : α} (hb : b ≠ a) (l : List α) :
    words a (b :: l) = (b :: l).takeWhile (· ≠ a) ::
      words a (((b :: l).dropWhile (· ≠ a)).drop 1) := by
  by_cases h : a ∈ b :: l
  · obtain ⟨w, t, hw, hwa⟩ := List.eq_append_cons_of_mem h
    have hne : w ≠ [] := by
      rintro rfl
      exact hb (List.cons.inj hw).1
    have hall : ∀ c ∈ w, decide (c ≠ a) = true := fun c hc => by
      simpa using ne_of_mem_of_not_mem hc hwa
    rw [hw, List.takeWhile_append_of_pos hall, List.dropWhile_append_of_pos hall,
      List.takeWhile_cons_of_neg (by simp), List.dropWhile_cons_of_neg (by simp), List.append_nil,
      List.drop_succ_cons, List.drop_zero, words_append_cons, words_of_notMem hwa, if_neg hne,
      List.singleton_append]
  · have hall : ∀ c ∈ b :: l, decide (c ≠ a) = true := fun c hc => by
      simpa using ne_of_mem_of_not_mem hc h
    rw [List.takeWhile_eq_self_iff.2 hall, List.dropWhile_eq_nil_iff.2 hall, List.drop_nil,
      words_of_notMem h, if_neg (List.cons_ne_nil b l), words_of_notMem List.not_mem_nil,
      if_pos rfl]

/-- The words hold everything but the separators. -/
theorem flatten_words (l : List α) : (words a l).flatten = l.filter (· ≠ a) := by
  induction hn : l.length using Nat.strong_induction_on generalizing l with
  | _ n ih =>
    by_cases h : a ∈ l
    · obtain ⟨s, t, rfl, hs⟩ := List.eq_append_cons_of_mem h
      simp only [List.length_append, List.length_cons] at hn
      rw [words_append_cons, List.flatten_append, ih _ (by omega) s rfl, ih _ (by omega) t rfl,
        List.filter_append, List.filter_cons_of_neg (by simp)]
    · have hl : l.filter (· ≠ a) = l := by
        rw [List.filter_eq_self]
        intro b hb
        simpa using ne_of_mem_of_not_mem hb h
      rw [words_of_notMem h, hl]
      split <;> simp_all

end Lines
