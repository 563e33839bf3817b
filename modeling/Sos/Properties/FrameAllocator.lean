import Sos.Frames
import Mathlib.Order.Interval.Finset.Nat

/-!
# The frame allocator over any sequence of calls

The free list is kept in the free frames, and the owners of the others write to them as they like.
The frames handed out and those the links lead through share out the range (`Frames.Lends`), and a
write stays in one frame, so no write of an owner reaches a link.
-/

namespace Sos.Frames

open FreeChain

variable {low high : Nat} {s : Frames} {out : List Nat} {f a : Nat}

/-- The page addresses in `[low, high)`. -/
def pages (low high : Nat) : Finset Nat := (Finset.Ico low high).filter (pageOffset · = 0)

theorem mem_pages : f ∈ pages low high ↔ (low ≤ f ∧ f < high) ∧ pageOffset f = 0 := by
  rw [pages, Finset.mem_filter, Finset.mem_Ico]

/-- The states after `frame_init` on `[low, high)` and any calls of `frame_alloc`, calls of
`frame_free` for frames handed out, and writes of single bytes to them; `out` are the frames handed
out. -/
inductive Run (low high : Nat) : Frames → List Nat → Prop
  | init (s : Frames) : Run low high (s.frameInit low (high - 1)) []
  | alloc {s : Frames} {out : List Nat} : Run low high s out → s.frameAlloc.1 ≠ 0 →
      Run low high s.frameAlloc.2 (s.frameAlloc.1 :: out)
  | allocNone {s : Frames} {out : List Nat} : Run low high s out → s.frameAlloc.1 = 0 →
      Run low high s.frameAlloc.2 out
  | free {s : Frames} {out : List Nat} {f : Nat} : Run low high s out → f ∈ out →
      Run low high (s.frameFree f) (out.erase f)
  | write {s : Frames} {out : List Nat} {f a : Nat} (b : UInt8) : Run low high s out → f ∈ out →
      f ≤ a → a < f + pageSize → Run low high { s with memory := Function.update s.memory a b } out

/-- A range `frame_init` is called with. -/
structure Range (low high : Nat) : Prop where
  low_pos : 0 < low
  lt : low < high
  le : high ≤ wordLimit
  low_aligned : pageOffset low = 0
  high_aligned : pageOffset high = 0

namespace Range

variable (h : Range low high)
include h

theorem zero_notMem : 0 ∉ pages low high := fun hz => by
  have hpos := h.low_pos
  have hle := (mem_pages.mp hz).1.1
  omega

/-- The range is a whole number of pages. -/
theorem exists_pages : ∃ n, 0 < n ∧ high = low + n * pageSize := by
  obtain ⟨-, hlt, -, hlow, hhigh⟩ := h
  refine ⟨(high - low) / pageSize, ?_, ?_⟩ <;> unfold pageOffset pageSize at * <;> omega

/-- The addresses of the pages, in order. -/
theorem val_pages {n : Nat} (hn : high = low + n * pageSize) :
    (((List.range' 0 n).map fun i => low + i * pageSize : List Nat) : Multiset Nat) =
      (pages low high).val := by
  have hlow := h.low_aligned
  have hinj : Function.Injective fun i => low + i * pageSize := fun i j hij => by
    simp only [pageSize] at hij
    omega
  have hnodup : ((List.range' 0 n).map fun i => low + i * pageSize).Nodup :=
    (List.nodup_range' ..).map hinj
  refine (Multiset.Nodup.ext (Multiset.coe_nodup.mpr hnodup) (Finset.nodup _)).mpr fun f => ?_
  rw [Multiset.mem_coe, List.mem_map, Finset.mem_val, mem_pages]
  constructor
  · rintro ⟨i, hi, rfl⟩
    have hi : i < n := by simpa using hi
    unfold pageOffset pageSize at *
    omega
  · rintro ⟨⟨hle, hlt⟩, hoff⟩
    refine ⟨(f - low) / pageSize, ?_, ?_⟩
    · rw [List.mem_range']
      unfold pageOffset pageSize at *
      exact ⟨(f - low) / 4096, by omega, by omega⟩
    · unfold pageOffset pageSize at *
      omega

end Range

/-- The frames handed out and the free list share out the range. -/
structure Lends (low high : Nat) (s : Frames) (out : List Nat) : Prop where
  shares : Shares (pages low high) 0 s.next s.firstFree out
  inUse : s.totalInUse = out.length

/-- `frame_init` links all frames. -/
theorem Lends.init (h : Range low high) (s : Frames) :
    Lends low high (s.frameInit low (high - 1)) [] := by
  obtain ⟨n, hn, hhigh⟩ := h.exists_pages
  obtain ⟨m, rfl⟩ : ∃ m, n = m + 1 := ⟨n - 1, by omega⟩
  have hval := h.val_pages hhigh
  have hle := h.le
  subst hhigh
  refine ⟨⟨(List.range' 0 (m + 1)).map fun i => low + i * pageSize, ?_, ?_⟩, rfl⟩
  · have hlinks : Links 0 (s.frameInit low (low + (m + 1) * pageSize - 1)).next (low + 0 * pageSize)
        ((List.range' 0 (m + 1)).map fun i => low + i * pageSize) :=
      links_range' (f := fun i => low + i * pageSize) 0 hn fun j _ hj => by
        rw [next_frameInit hle (by omega), Nat.zero_add]
    simp only [Nat.zero_mul, Nat.add_zero] at hlinks
    exact hlinks
  · rw [Multiset.coe_nil, Multiset.add_zero]
    exact hval

/-- `frame_alloc` returns 0 when the list is empty, and then changes nothing. -/
theorem frameAlloc_of_empty (hz : s.firstFree = 0) : s.frameAlloc = (0, s) := by
  unfold frameAlloc
  rw [if_neg (by simp [hz]), hz]

theorem frameAlloc_of_ne (hne : s.firstFree ≠ 0) : s.frameAlloc = (s.firstFree,
    { s with firstFree := s.next s.firstFree, totalInUse := s.totalInUse + 1 }) := if_pos hne

theorem frameAlloc_eq_zero_iff : s.frameAlloc.1 = 0 ↔ s.firstFree = 0 := by
  by_cases hz : s.firstFree = 0
  · simp [frameAlloc_of_empty hz, hz]
  · simp [frameAlloc_of_ne hz, hz]

namespace Lends

variable (h : Lends low high s out)
include h

theorem mem_pages_of_mem (hf : f ∈ out) : f ∈ pages low high :=
  h.shares.mem_all (Multiset.mem_coe.mpr hf)

theorem firstFree_lt (hr : Range low high) : s.firstFree < wordLimit := by
  by_cases hz : s.firstFree = 0
  · rw [hz]
    decide
  · exact (mem_pages.mp (h.shares.take hz).1).1.2.trans_le hr.le

/-- A frame that is handed out comes from the range and was not handed out before. -/
theorem frameAlloc (hne : s.frameAlloc.1 ≠ 0) :
    s.frameAlloc.1 ∈ pages low high ∧ s.frameAlloc.1 ∉ out ∧
      Lends low high s.frameAlloc.2 (s.frameAlloc.1 :: out) := by
  have hfirst : s.firstFree ≠ 0 := fun hz => hne (frameAlloc_eq_zero_iff.mpr hz)
  rw [frameAlloc_of_ne hfirst]
  obtain ⟨hmem, hnot, hshares⟩ := h.shares.take hfirst
  refine ⟨hmem, hnot, hshares, ?_⟩
  show s.totalInUse + 1 = _
  rw [h.inUse, List.length_cons]
  push_cast
  rfl

theorem frameFree (hr : Range low high) (hf : f ∈ out) :
    Lends low high (s.frameFree f) (out.erase f) where
  shares := by
    have halign := (mem_pages.mp (h.mem_pages_of_mem hf)).2
    have hshares := h.shares
    rw [Multiset.coe_eq_coe.mpr (List.perm_cons_erase hf), ← Multiset.cons_coe] at hshares
    refine hshares.give (next_frameFree_self (h.firstFree_lt hr)) fun g hg hused => ?_
    refine next_frameFree_of_ne halign (mem_pages.mp hg).2 ?_
    rintro rfl
    exact hused (Multiset.mem_cons_self _ _)
  inUse := by
    have hpos := List.length_pos_of_mem hf
    show s.totalInUse - 1 = _
    rw [h.inUse, List.length_erase_of_mem hf]
    omega

theorem write (hf : f ∈ out) (hfa : f ≤ a) (haf : a < f + pageSize) (b : UInt8) :
    Lends low high { s with memory := Function.update s.memory a b } out where
  shares := h.shares.congr fun g hg hused => by
    refine next_update (mem_pages.mp (h.mem_pages_of_mem hf)).2 (mem_pages.mp hg).2 ?_ hfa haf b
    rintro rfl
    exact hused (Multiset.mem_coe.mpr hf)
  inUse := h.inUse

theorem perm {out' : List Nat} (hp : out.Perm out') : Lends low high s out' where
  shares := Multiset.coe_eq_coe.mpr hp ▸ h.shares
  inUse := by rw [h.inUse, hp.length_eq]

/-- The list is empty exactly when every frame is handed out. -/
theorem firstFree_eq_zero_iff (hr : Range low high) :
    s.firstFree = 0 ↔ ∀ f ∈ pages low high, f ∈ out := by
  rw [h.shares.head_eq_stop_iff hr.zero_notMem]
  constructor
  · intro hfull f hf
    have heq := Multiset.eq_of_le_of_card_le h.shares.used_le hfull.ge
    rw [← Multiset.mem_coe, heq]
    exact hf
  · intro hall
    refine le_antisymm (Multiset.card_le_card h.shares.used_le) (Multiset.card_le_card ?_)
    exact (Multiset.le_iff_subset (Finset.nodup _)).mpr hall

end Lends

/-- Every step keeps the sharing. -/
theorem Run.lends (hr : Range low high) (h : Run low high s out) : Lends low high s out := by
  induction h with
  | init s => exact .init hr s
  | alloc _ hne ih => exact (ih.frameAlloc hne).2.2
  | allocNone _ hz ih =>
    rw [frameAlloc_of_empty (frameAlloc_eq_zero_iff.mp hz)]
    exact ih
  | free _ hf ih => exact ih.frameFree hr hf
  | write b _ hf hfa haf ih => exact ih.write hf hfa haf b

/-- **The frame allocator is sound.** After any sequence of calls and writes of the owners,
`frame_alloc` returns a page address of the range that is not handed out, or 0; it returns 0 exactly
when all frames are handed out, and then changes nothing; and `frames_allocated` is the number of
frames handed out, which are all different. -/
theorem frame_allocator_sound (hr : Range low high) (h : Run low high s out) :
    (s.frameAlloc.1 ≠ 0 → s.frameAlloc.1 ∉ out ∧ low ≤ s.frameAlloc.1 ∧ s.frameAlloc.1 < high ∧
      pageOffset s.frameAlloc.1 = 0) ∧
    (s.frameAlloc.1 = 0 ↔ ∀ f, low ≤ f → f < high → pageOffset f = 0 → f ∈ out) ∧
    (s.frameAlloc.1 = 0 → s.frameAlloc.2 = s) ∧
    out.Nodup ∧ s.framesAllocated = out.length := by
  have hl := h.lends hr
  refine ⟨fun hne => ?_, ?_, fun hz => ?_, Multiset.coe_nodup.mp hl.shares.nodup, hl.inUse⟩
  · obtain ⟨hmem, hnot, -⟩ := hl.frameAlloc hne
    obtain ⟨⟨hle, hlt⟩, halign⟩ := mem_pages.mp hmem
    exact ⟨hnot, hle, hlt, halign⟩
  · rw [frameAlloc_eq_zero_iff, hl.firstFree_eq_zero_iff hr]
    constructor
    · exact fun hall f hle hlt halign => hall f (mem_pages.mpr ⟨⟨hle, hlt⟩, halign⟩)
    · intro hall f hf
      obtain ⟨⟨hle, hlt⟩, halign⟩ := mem_pages.mp hf
      exact hall f hle hlt halign
  · rw [frameAlloc_of_empty (frameAlloc_eq_zero_iff.mp hz)]

/-- Any memory, and the variables as the loader has set them. -/
def uninitialised : Frames :=
  { memory := fun _ => 7, totalFrames := 0, firstFree := 0, totalInUse := 0 }

theorem range_twoPages : Range 0x1000 0x3000 := by
  constructor <;> decide

/-- Of two frames both are handed out, and one is overwritten and given back. -/
theorem frame_allocator_sound_twoFrames :
    ∃ s, Run 0x1000 0x3000 s [0x2000] ∧ s.frameAlloc.1 = 0x1000 ∧ 0x1000 ∉ [0x2000] ∧
      s.framesAllocated = 1 := by
  have h0 : Run 0x1000 0x3000 (uninitialised.frameInit 0x1000 0x2fff) [] := .init uninitialised
  have h1 := Run.alloc h0 (by decide)
  have h2 := Run.alloc h1 (by decide)
  have h3 := Run.write (f := 0x1000) (a := 0x1003) 255 h2 (by decide) (by decide) (by decide)
  have h4 := Run.free (f := 0x1000) h3 (by decide)
  obtain ⟨hnew, -, -, -, hinUse⟩ := frame_allocator_sound range_twoPages h4
  exact ⟨_, h4, by decide, (hnew (by decide)).1, hinUse⟩

/-- **The pager's list is the list in memory.** After any calls and writes the links lead through
the frames that are not handed out. The pager's model with this list returns the same frame, and
calls and writes keep the two in step. -/
theorem free_list_represented (hr : Range low high) (h : Run low high s out) :
    ∃ l, (∀ f, f ∈ l ↔ f ∈ pages low high ∧ f ∉ out) ∧ ∀ k : Kernel, k.free = l →
      k.totalInUse = out.length → s.Represents k ∧
      (∃ k', Sos.frameAlloc k = .ok s.frameAlloc.1 k' ∧ s.frameAlloc.2.Represents k') ∧
      ∀ f ∈ out, (s.frameFree f).Represents (k.frameFree f) ∧
        ∀ a b, f ≤ a → a < f + pageSize →
          ({ s with memory := Function.update s.memory a b } : Frames).Represents k := by
  have hl := h.lends hr
  obtain ⟨l, hlinks, -, hnd, hmem⟩ := hl.shares.exists_chain
  have hframe : ∀ f ∈ pages low high, f ≠ 0 ∧ pageOffset f = 0 ∧ f < wordLimit := fun f hf => by
    obtain ⟨⟨hle, hlt⟩, halign⟩ := mem_pages.mp hf
    exact ⟨(hr.low_pos.trans_le hle).ne', halign, hlt.trans_le hr.le⟩
  refine ⟨l, hmem, ?_⟩
  rintro k rfl huse
  have hrep : s.Represents k :=
    ⟨hlinks, hnd, fun f hf => hframe f ((hmem f).mp hf).1, hl.inUse.trans huse.symm⟩
  refine ⟨hrep, hrep.frameAlloc, fun f hf => ?_⟩
  obtain ⟨hne, halign, hlt⟩ := hframe f (hl.mem_pages_of_mem hf)
  have hused : f ∉ k.free := fun hfree => ((hmem f).mp hfree).2 hf
  exact ⟨hrep.frameFree hne halign hlt hused,
    fun a b hfa haf => hrep.write halign hused hfa haf b⟩

theorem free_list_represented_twoFrames :
    ∃ (s : Frames) (l : List Nat), 0x2000 ∈ l ∧
      ∀ k : Kernel, k.free = l → k.totalInUse = 1 → s.Represents k := by
  have h0 : Run 0x1000 0x3000 (uninitialised.frameInit 0x1000 0x2fff) [] := .init uninitialised
  have h1 := Run.alloc h0 (by decide)
  obtain ⟨l, hl, hk⟩ := free_list_represented range_twoPages h1
  have hmem := (hl 0x2000).mpr ⟨mem_pages.mpr (by decide), by decide⟩
  exact ⟨_, l, hmem, fun k hfree huse => (hk k hfree huse).1⟩

end Sos.Frames
