import Mathlib.Data.List.Nodup

/-!
# Singly linked lists

Cells with contents and a pointer to the next cell, in a memory `nodes`. `Seg nodes p l q` says that
from the pointer `p` one gets through the cells of `l`, given with their contents, to the pointer
`q`; `IsList` is a segment that ends in the null pointer, with no cell twice and a pointer to the
last one.

A list is changed by pointing its last cell somewhere else (`Seg.relink`) and by taking a cell off
in front; cells that are not on a segment do not count (`Seg.congr`).
-/

namespace Sll

variable {A α : Type}

/-- A cell. -/
structure Node (A α : Type) where
  contents : α
  next : Option A

variable {nodes nodes' : A → Option (Node A α)} {p q r : Option A} {l m : List (A × α)} {a : A}
  {x : α}

/-- From `p` the cells of `l` lead to `q`. -/
def Seg (nodes : A → Option (Node A α)) : Option A → List (A × α) → Option A → Prop
  | p, [], q => p = q
  | p, (a, x) :: l, q => p = some a ∧ ∃ n, nodes a = some ⟨x, n⟩ ∧ Seg nodes n l q

/-- The addresses of the cells. -/
abbrev addrs (l : List (A × α)) : List A := l.map Prod.fst

/-- The last cell. -/
def lastAddr (l : List (A × α)) : Option A := (addrs l).getLast?

@[simp] theorem lastAddr_nil : lastAddr ([] : List (A × α)) = none := rfl

@[simp] theorem lastAddr_append_singleton : lastAddr (l ++ [(a, x)]) = some a := by
  simp [lastAddr]

theorem lastAddr_cons {c : A × α} (h : l ≠ []) : lastAddr (c :: l) = lastAddr l := by
  show (c.1 :: addrs l).getLast? = _
  rw [List.getLast?_cons_of_ne_nil (by simpa using h)]
  rfl

theorem lastAddr_eq_none : lastAddr l = none ↔ l = [] := by
  simp [lastAddr]

namespace Seg

theorem append_iff : Seg nodes p (l ++ m) q ↔ ∃ r, Seg nodes p l r ∧ Seg nodes r m q := by
  induction l generalizing p with
  | nil => exact ⟨fun h => ⟨p, rfl, h⟩, fun ⟨r, hr, h⟩ => hr.symm ▸ h⟩
  | cons c l ih =>
    constructor
    · rintro ⟨rfl, n, hn, h⟩
      obtain ⟨r, hl, hm⟩ := ih.mp h
      exact ⟨r, ⟨rfl, n, hn, hl⟩, hm⟩
    · rintro ⟨r, ⟨rfl, n, hn, hl⟩, hm⟩
      exact ⟨rfl, n, hn, ih.mpr ⟨r, hl, hm⟩⟩

/-- Only the cells of the segment count. -/
theorem congr (h : Seg nodes p l q) (hn : ∀ a ∈ addrs l, nodes' a = nodes a) :
    Seg nodes' p l q := by
  induction l generalizing p with
  | nil => exact h
  | cons c l ih =>
    obtain ⟨hp, n, hc, hl⟩ := h
    refine ⟨hp, n, ?_, ih hl fun a ha => hn a (List.mem_cons_of_mem _ ha)⟩
    rw [hn c.1 (by simp)]
    exact hc

theorem update [DecidableEq A] (h : Seg nodes p l q) (ha : a ∉ addrs l) (n : Option (Node A α)) :
    Seg (Function.update nodes a n) p l q := by
  refine h.congr fun b hb => Function.update_of_ne ?_ ..
  rintro rfl
  exact ha hb

/-- Pointing the last cell somewhere else. -/
theorem relink [DecidableEq A] (h : Seg nodes p (l ++ [(a, x)]) q) (ha : a ∉ addrs l)
    (r : Option A) :
    nodes a = some ⟨x, q⟩ ∧ Seg (Function.update nodes a (some ⟨x, r⟩)) p (l ++ [(a, x)]) r := by
  obtain ⟨s, hl, hs, n, hn, hnq⟩ := append_iff.mp h
  obtain rfl : n = q := hnq
  exact ⟨hn, append_iff.mpr ⟨s, hl.update ha _, hs, r, Function.update_self .., rfl⟩⟩

/-- The cells of a segment are there, with their contents. -/
theorem exists_next (h : Seg nodes p l q) (ha : (a, x) ∈ l) : ∃ n, nodes a = some ⟨x, n⟩ := by
  induction l generalizing p with
  | nil => simp at ha
  | cons c l ih =>
    obtain ⟨-, n, hc, hl⟩ := h
    rcases List.mem_cons.mp ha with rfl | ha
    · exact ⟨n, hc⟩
    · exact ih hl ha

theorem exists_node (h : Seg nodes p l q) (ha : a ∈ addrs l) : ∃ n, nodes a = some n := by
  obtain ⟨⟨_, x⟩, hmem, rfl⟩ := List.mem_map.mp ha
  obtain ⟨n, hn⟩ := h.exists_next hmem
  exact ⟨_, hn⟩

/-- A cell that is not there is not on a segment. -/
theorem notMem_of_none (h : Seg nodes p l q) (ha : nodes a = none) : a ∉ addrs l := fun hin => by
  obtain ⟨n, hn⟩ := h.exists_node hin
  rw [ha] at hn
  simp at hn

/-- Where a segment begins. -/
theorem head_eq (h : Seg nodes p l none) : p = (addrs l).head? := by
  cases l with
  | nil => exact h
  | cons c l => exact h.1

end Seg

/-- The list with the cells `l`. -/
structure IsList (nodes : A → Option (Node A α)) (head last : Option A) (l : List (A × α)) :
    Prop where
  seg : Seg nodes head l none
  nodup : (addrs l).Nodup
  last_eq : last = lastAddr l

namespace IsList

variable {head last : Option A}

/-- The two pointers are null together. -/
theorem head_eq_none_iff (h : IsList nodes head last l) : head = none ↔ l = [] := by
  rw [h.seg.head_eq]
  simp

theorem last_eq_none_iff (h : IsList nodes head last l) : last = none ↔ l = [] := by
  rw [h.last_eq, lastAddr_eq_none]

variable [DecidableEq A]

/-- A new cell alone. -/
theorem singleton (nodes : A → Option (Node A α)) (a : A) (x : α) :
    IsList (Function.update nodes a (some ⟨x, none⟩)) (some a) (some a) [(a, x)] where
  seg := ⟨rfl, none, Function.update_self .., rfl⟩
  nodup := List.nodup_singleton a
  last_eq := rfl

/-- A new cell in front. -/
theorem shift (h : IsList nodes head last l) (ha : nodes a = none) (hne : l ≠ []) :
    IsList (Function.update nodes a (some ⟨x, head⟩)) (some a) last ((a, x) :: l) where
  seg := ⟨rfl, head, Function.update_self .., h.seg.update (h.seg.notMem_of_none ha) _⟩
  nodup := List.nodup_cons.mpr ⟨h.seg.notMem_of_none ha, h.nodup⟩
  last_eq := by rw [h.last_eq, lastAddr_cons hne]

/-- A new cell at the end. -/
theorem push {b : A} {y : α} (h : IsList nodes head last (l ++ [(b, y)])) (ha : nodes a = none) :
    IsList (Function.update (Function.update nodes a (some ⟨x, none⟩)) b (some ⟨y, some a⟩)) head
      (some a) (l ++ [(b, y)] ++ [(a, x)]) where
  seg := by
    have hnot := h.seg.notMem_of_none ha
    have hbl : b ∉ addrs l := fun hb => by
      have hnd := h.nodup
      simp only [addrs, List.map_append, List.map_cons, List.map_nil] at hnd
      exact (List.nodup_append.mp hnd).2.2 b hb b (by simp) rfl
    have hab : a ≠ b := by
      rintro rfl
      exact hnot (by simp)
    obtain ⟨-, hseg⟩ := (h.seg.update hnot (some ⟨x, none⟩)).relink hbl (some a)
    refine Seg.append_iff.mpr ⟨some a, hseg, rfl, none, ?_, rfl⟩
    rw [Function.update_of_ne hab, Function.update_self]
  nodup := by
    have hnot := h.seg.notMem_of_none ha
    rw [addrs, List.map_append]
    refine List.Nodup.append h.nodup (List.nodup_singleton a) ?_
    simpa using hnot
  last_eq := lastAddr_append_singleton.symm

/-- The first cell goes. -/
theorem unshift (h : IsList nodes head last ((a, x) :: l)) :
    ∃ n, nodes a = some ⟨x, n⟩ ∧
      IsList (Function.update nodes a none) n (if n = none then none else last) l := by
  obtain ⟨-, n, hn, hl⟩ := h.seg
  obtain ⟨hnot, hnd⟩ := List.nodup_cons.mp h.nodup
  refine ⟨n, hn, hl.update hnot none, hnd, ?_⟩
  rw [h.last_eq]
  cases l with
  | nil =>
    obtain rfl : n = none := hl
    rfl
  | cons c l =>
    rw [if_neg (by rw [hl.1]; simp), lastAddr_cons (by simp)]

/-- The last cell goes, the one before it being `b`. -/
theorem pop {b : A} {y : α} (h : IsList nodes head last (l ++ [(b, y)] ++ [(a, x)])) :
    nodes b = some ⟨y, some a⟩ ∧
      IsList (Function.update (Function.update nodes b (some ⟨y, none⟩)) a none) head (some b)
        (l ++ [(b, y)]) := by
  have hnd := h.nodup
  rw [addrs, List.map_append] at hnd
  obtain ⟨hnd, -, hdisj⟩ := List.nodup_append.mp hnd
  have hnot : a ∉ addrs (l ++ [(b, y)]) := fun ha => hdisj a ha a (by simp) rfl
  have hbl : b ∉ addrs l := fun hb => by
    simp only [List.map_append, List.map_cons, List.map_nil] at hnd
    exact (List.nodup_append.mp hnd).2.2 b hb b (by simp) rfl
  obtain ⟨r, hl, rfl, n, hn, -⟩ := Seg.append_iff.mp h.seg
  obtain ⟨hb, hseg⟩ := hl.relink hbl none
  exact ⟨hb, hseg.update hnot none, hnd, lastAddr_append_singleton.symm⟩

end IsList

end Sll
