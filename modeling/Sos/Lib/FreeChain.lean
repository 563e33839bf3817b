import Mathlib.Data.List.Range
import Mathlib.Data.Finset.Card

/-!
# Free chains

An allocator can keep what is free in a chain: `head` is the first free place, `next a` the one
after the free place `a`, and `stop`, which is not a place, ends the chain. Allocating takes the
head off, freeing puts a place in front. It does not matter where `next` is kept: in an array beside
the places, or in the places themselves as long as they are free.

* `Links stop next head l` : following `next` from `head` visits the places of `l`, in that order
* `Shares all stop next head used` : the chain and what is in use share out the places `all`
* `Chain n stop next head l` : `Links` where the places are the indices below `n`
-/

namespace FreeChain

section Links

variable {α : Type} {stop : α} {next next' : α → α} {head a : α} {l : List α}

/-! ## Chains -/

/-- The chain from `head` on is `l`. -/
def Links (stop : α) (next : α → α) : α → List α → Prop
  | head, [] => head = stop
  | head, a :: l => head = a ∧ Links stop next (next a) l

/-- Only the links of the places on the chain count. -/
theorem Links.congr (h : Links stop next head l) (hn : ∀ a ∈ l, next' a = next a) :
    Links stop next' head l := by
  induction l generalizing head with
  | nil => exact h
  | cons b l ih =>
    refine ⟨h.1, ?_⟩
    rw [hn b (by simp)]
    exact ih h.2 fun a ha => hn a (List.mem_cons_of_mem _ ha)

/-- A head that is a place is the first one of the chain. -/
theorem Links.pop (h : Links stop next head l) (hh : head ≠ stop) :
    ∃ l', l = head :: l' ∧ Links stop next (next head) l' := by
  cases l with
  | nil => exact absurd h hh
  | cons b l =>
    obtain ⟨rfl, hl⟩ := h
    exact ⟨l, rfl, hl⟩

/-- Places that lead to their successor are a chain. -/
theorem links_range' {f : Nat → α} {m : Nat} (i : Nat) (hm : 0 < m)
    (hn : ∀ j, i ≤ j → j < i + m → next (f j) = if j + 1 < i + m then f (j + 1) else stop) :
    Links stop next (f i) ((List.range' i m).map f) := by
  induction m generalizing i with
  | zero => omega
  | succ m ih =>
    rw [List.range'_succ, List.map_cons]
    refine ⟨rfl, ?_⟩
    rw [hn i (by omega) (by omega)]
    cases m with
    | zero => simp [Links]
    | succ m =>
      rw [if_pos (by omega)]
      refine ih (i + 1) (by omega) fun j hj hj' => ?_
      rw [hn j (by omega) (by omega)]
      simp only [show i + 1 + (m + 1) = i + (m + 1 + 1) by omega]

/-! ## Chains and what is in use -/

variable {all : Finset α} {used : Multiset α}

/-- Every place is either on the chain or in use, once. -/
def Shares (all : Finset α) (stop : α) (next : α → α) (head : α) (used : Multiset α) : Prop :=
  ∃ l, Links stop next head l ∧ (l : Multiset α) + used = all.val

namespace Shares

section Shared

variable (h : Shares all stop next head used)
include h

theorem used_le : used ≤ all.val := by
  obtain ⟨l, -, hall⟩ := h
  rw [← hall]
  exact Multiset.le_add_left _ _

theorem nodup : used.Nodup :=
  Multiset.nodup_of_le h.used_le all.nodup

theorem mem_all (ha : a ∈ used) : a ∈ all :=
  Multiset.mem_of_le h.used_le ha

/-- The chain is through exactly when everything is in use. -/
theorem head_eq_stop_iff (hstop : stop ∉ all) :
    head = stop ↔ used.card = all.card := by
  obtain ⟨l, hl, hall⟩ := h
  have hcard : l.length + used.card = all.card := by
    simpa using congrArg Multiset.card hall
  cases l with
  | nil =>
    have hhead : head = stop := hl
    simpa [hhead] using hcard
  | cons b l =>
    have hb : b ∈ all := by
      rw [← Finset.mem_val, ← hall]
      simp
    obtain ⟨rfl, -⟩ := hl
    constructor
    · rintro rfl
      exact absurd hb hstop
    · intro hfull
      rw [hfull, List.length_cons] at hcard
      omega

/-- The chain and the places in use exclude each other. -/
theorem exists_chain :
    ∃ l, Links stop next head l ∧ (l : Multiset α) + used = all.val ∧ l.Nodup ∧
      ∀ a, a ∈ l ↔ a ∈ all ∧ a ∉ used := by
  obtain ⟨l, hl, hall⟩ := h
  have hnd : ((l : Multiset α) + used).Nodup := hall ▸ all.nodup
  obtain ⟨hndl, -, hdisj⟩ := Multiset.nodup_add.mp hnd
  refine ⟨l, hl, hall, Multiset.coe_nodup.mp hndl, fun a => ?_⟩
  rw [← Finset.mem_val, ← hall, Multiset.mem_add, Multiset.mem_coe]
  refine ⟨fun ha => ⟨.inl ha, fun hu => ?_⟩, fun ha => ha.1.resolve_right ha.2⟩
  exact Multiset.disjoint_left.mp hdisj (Multiset.mem_coe.mpr ha) hu

/-- Only the links of the free places count. -/
theorem congr (hn : ∀ a ∈ all, a ∉ used → next' a = next a) : Shares all stop next' head used := by
  obtain ⟨l, hl, hall, -, hmem⟩ := h.exists_chain
  exact ⟨l, hl.congr fun a ha => hn a ((hmem a).mp ha).1 ((hmem a).mp ha).2, hall⟩

/-- Taking the head off the chain. -/
theorem take (hh : head ≠ stop) :
    head ∈ all ∧ head ∉ used ∧ Shares all stop next (next head) (head ::ₘ used) := by
  obtain ⟨l, hl, hall⟩ := h
  obtain ⟨l, rfl, htail⟩ := hl.pop hh
  have hall' : (l : Multiset α) + head ::ₘ used = all.val := by
    rw [← hall, ← Multiset.cons_coe, Multiset.cons_add, Multiset.add_cons]
  have hshares : Shares all stop next (next head) (head ::ₘ used) := ⟨l, htail, hall'⟩
  exact ⟨hshares.mem_all (Multiset.mem_cons_self _ _), (Multiset.nodup_cons.mp hshares.nodup).1,
    hshares⟩

end Shared

/-- Putting a place in front of the chain, which is then where it leads. -/
theorem give {a : α} (h : Shares all stop next head (a ::ₘ used)) (ha : next' a = head)
    (hn : ∀ b ∈ all, b ∉ a ::ₘ used → next' b = next b) : Shares all stop next' a used := by
  obtain ⟨l, hl, hall⟩ := h.congr hn
  refine ⟨a :: l, ⟨rfl, by rw [ha]; exact hl⟩, ?_⟩
  rw [← hall, ← Multiset.cons_coe, Multiset.cons_add, Multiset.add_cons]

end Shares

end Links

/-! ## Indices below a bound -/

variable {n stop : Nat} {next : Nat → Nat} {head i : Nat} {l : List Nat}

/-- The chain from `head` on is `l`. -/
def Chain (n stop : Nat) (next : Nat → Nat) : Nat → List Nat → Prop
  | head, [] => head = stop
  | head, i :: l => head = i ∧ i < n ∧ Chain n stop next (next i) l

theorem Chain.lt (h : Chain n stop next head l) (hi : i ∈ l) : i < n := by
  induction l generalizing head with
  | nil => simp at hi
  | cons j l ih =>
    rcases List.mem_cons.mp hi with rfl | hi
    · exact h.2.1
    · exact ih h.2.2 hi

theorem Chain.links (h : Chain n stop next head l) : Links stop next head l := by
  induction l generalizing head with
  | nil => exact h
  | cons j l ih => exact ⟨h.1, ih h.2.2⟩

/-- A chain of indices in range is one of indices. -/
theorem Links.chain (h : Links stop next head l) (hlt : ∀ i ∈ l, i < n) :
    Chain n stop next head l := by
  induction l generalizing head with
  | nil => exact h
  | cons j l ih =>
    exact ⟨h.1, hlt j (by simp), ih h.2 fun i hi => hlt i (List.mem_cons_of_mem _ hi)⟩

/-- Every index leading to its successor: all of them are free. -/
theorem shares_init (hn : 0 < n) :
    Shares (Finset.range n) stop (fun j => if j + 1 < n then j + 1 else stop) 0 0 := by
  refine ⟨List.range n, ?_, Multiset.add_zero _⟩
  have hlinks : Links stop (fun j => if j + 1 < n then j + 1 else stop) (id 0)
      ((List.range' 0 n).map id) := links_range' 0 hn fun j _ hj => by simp
  rwa [List.map_id, ← List.range_eq_range'] at hlinks

theorem Shares.exists_index_chain {used : Multiset Nat}
    (h : Shares (Finset.range n) stop next head used) :
    ∃ l, Chain n stop next head l ∧ l.Nodup ∧ ∀ i, i ∈ l ↔ i < n ∧ i ∉ used := by
  obtain ⟨l, hl, -, hnd, hmem⟩ := h.exists_chain
  simp only [Finset.mem_range] at hmem
  exact ⟨l, hl.chain fun i hi => ((hmem i).mp hi).1, hnd, hmem⟩

end FreeChain
