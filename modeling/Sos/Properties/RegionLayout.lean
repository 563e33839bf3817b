import Sos.Frames
import Sos.Properties.ElfHeader

/-!
# The layout of the regions

A process loaded from a file has the regions of its segments, and behind them an empty heap and the
stack. The heap begins at the next page above the highest segment, where the tops are compared as
signed numbers: a segment that ends in the upper half of the address space is not seen.
`SOS_MOREMEM` adds to the size of the heap, whatever lies above it.
-/

namespace Sos

open Hoare

variable {p : Process} {phs : List ProgramHeader} {r s : Region} {segs : List Region}

/-! ## Disjoint regions -/

/-- The regions have no address in common. -/
def Region.Disjoint (r s : Region) : Prop :=
  ∀ a, ¬ ((r.base ≤ a ∧ a < r.base + r.size) ∧ s.base ≤ a ∧ a < s.base + s.size)

theorem Region.disjoint_iff : r.Disjoint s ↔
    r.size = 0 ∨ s.size = 0 ∨ r.base + r.size ≤ s.base ∨ s.base + s.size ≤ r.base := by
  constructor
  · intro h
    have hmax := h (max r.base s.base)
    omega
  · intro h a ha
    omega

theorem findRegion_iff {a : Nat} :
    findRegion a r = true ↔ r.base ≤ a ∧ a < (r.base + r.size) % wordLimit := decide_eq_true_iff

/-- A range of addresses that a region is not to meet. -/
def Region.Avoids (r : Region) (low high : Nat) : Prop :=
  r.size = 0 ∨ high ≤ low ∨ r.base + r.size ≤ low ∨ high ≤ r.base

instance (r : Region) (low high : Nat) : Decidable (r.Avoids low high) :=
  inferInstanceAs (Decidable (_ ∨ _))

/-! ## The heap -/

/-- What `SOS_MOREMEM` gives the caller: the old end of the heap. -/
def heapTop (regions : List Region) : Option Nat :=
  (regions.find? (·.type = .heap)).map fun heap => (heap.base + heap.size) % wordLimit

/-- The regions after some calls of `SOS_MOREMEM`. -/
def afterMoremem (regions : List Region) (nbs : List UInt32) : List Region :=
  nbs.foldl (fun rs nb => growHeap nb.toNat rs) regions

/-- Every address of the range that a call gives the caller is found in the heap. -/
def Granted (regions : List Region) (nb : UInt32) : Prop :=
  ∀ base ∈ heapTop regions, ∀ a, base ≤ a → a < base + nb.toNat →
    ∃ heap, (growHeap nb.toNat regions).find? (findRegion a) = some heap ∧ heap.type = .heap

/-- The regions are disjoint and do not wrap after the calls, and each call granted its range. -/
structure LaidOut (regions : List Region) (nbs : List UInt32) : Prop where
  disjoint : (afterMoremem regions nbs).Pairwise Region.Disjoint
  noWrap : ∀ r ∈ afterMoremem regions nbs, r.base + r.size < wordLimit
  granted : ∀ i (h : i < nbs.length), Granted (afterMoremem regions (nbs.take i)) nbs[i]

/-! ## The regions of a process -/

/-- Where the heap is put above the segments. -/
def heapBase (segs : List Region) : Nat :=
  pageAlign ((regionsHighest segs).toNat + (pageSize - 1))

def stackBase : Nat := stackTop - oneMeg

def heapOf (segs : List Region) (size : Nat) : Region :=
  { type := .heap, base := heapBase segs, size, rights := regionRead ||| regionWrite }

def stackOf : Region :=
  { type := .stack, base := stackBase, size := oneMeg, rights := regionRead ||| regionWrite }

/-- All regions, with `size` bytes of heap. -/
def layout (segs : List Region) (size : Nat) : List Region :=
  segs ++ [heapOf segs size, stackOf]

theorem addBuiltinRegions_eq_layout (h : regionsHighest p.regions ≠ 0) :
    (addBuiltinRegions p).regions = layout p.regions 0 := by
  unfold addBuiltinRegions
  rw [if_neg h]
  rfl

theorem growHeap_append (hother : ∀ r ∈ segs, r.type = .other) (nb : Nat) (rs : List Region) :
    growHeap nb (segs ++ rs) = segs ++ growHeap nb rs := by
  induction segs with
  | nil => rfl
  | cons r segs ih =>
    have hr : r.type = .other := hother r List.mem_cons_self
    rw [List.cons_append, growHeap, if_neg (by simp [hr]),
      ih fun r' hr' => hother r' (List.mem_cons_of_mem r hr'), List.cons_append]

section Layout

variable (hother : ∀ r ∈ segs, r.type = .other)
include hother

theorem growHeap_layout (nb size : Nat) :
    growHeap nb (layout segs size) = layout segs ((nb + size) % wordLimit) := by
  unfold layout
  rw [growHeap_append hother, growHeap, if_pos (by rfl)]
  rfl

theorem heapTop_layout (size : Nat) :
    heapTop (layout segs size) = some ((heapBase segs + size) % wordLimit) := by
  unfold heapTop layout
  have hnone : segs.find? (·.type = .heap) = none :=
    List.find?_eq_none.mpr fun r hr => by simp [hother r hr]
  rw [List.find?_append, hnone]
  rfl

/-- The sizes add up modulo 2^32. -/
theorem afterMoremem_layout : ∀ (nbs : List UInt32) (size : Nat), size < wordLimit →
    afterMoremem (layout segs size) nbs =
      layout segs ((size + (nbs.map UInt32.toNat).sum) % wordLimit)
  | [], size, hsize => by
    rw [List.map_nil, List.sum_nil, Nat.add_zero, Nat.mod_eq_of_lt hsize]
    rfl
  | nb :: nbs, size, hsize => by
    have hstep : afterMoremem (layout segs size) (nb :: nbs) =
        afterMoremem (layout segs ((nb.toNat + size) % wordLimit)) nbs := by
      unfold afterMoremem
      rw [List.foldl_cons, growHeap_layout hother]
    rw [hstep, afterMoremem_layout nbs _ (Nat.mod_lt _ (by decide)), List.map_cons, List.sum_cons,
      Nat.mod_add_mod, Nat.add_comm nb.toNat size, Nat.add_assoc]

/-- An address is found in the heap if the heap has it and no segment does. -/
theorem find_layout_iff {size a : Nat} :
    (∃ heap, (layout segs size).find? (findRegion a) = some heap ∧ heap.type = .heap) ↔
      (∀ r ∈ segs, findRegion a r = false) ∧ findRegion a (heapOf segs size) = true := by
  unfold layout
  rw [List.find?_append]
  cases hseg : segs.find? (findRegion a) with
  | some r =>
    have hr := List.mem_of_find?_eq_some hseg
    refine iff_of_false ?_ fun h => ?_
    · rintro ⟨heap, heq, hheap⟩
      obtain rfl : r = heap := Option.some.inj heq
      rw [hother r hr] at hheap
      simp at hheap
    · have hfalse := h.1 r hr
      rw [List.find?_some hseg] at hfalse
      simp at hfalse
  | none =>
    have hnone : ∀ r ∈ segs, findRegion a r = false := by
      simpa using List.find?_eq_none.mp hseg
    rw [Option.none_or, List.find?_cons]
    cases hheap : findRegion a (heapOf segs size) with
    | true => exact iff_of_true ⟨_, rfl, rfl⟩ ⟨hnone, rfl⟩
    | false =>
      refine iff_of_false ?_ fun h => absurd h.2 (by simp)
      rintro ⟨heap, heq, htype⟩
      have hmem := List.mem_of_find?_eq_some heq
      rw [List.mem_singleton] at hmem
      rw [hmem] at htype
      simp [stackOf] at htype

/-- A range is granted if the heap does not wrap and the segments lie off it. -/
theorem granted_layout_iff {size : Nat} {nb : UInt32} (hno : heapBase segs + size < wordLimit) :
    Granted (layout segs size) nb ↔ nb.toNat = 0 ∨ heapBase segs + size + nb.toNat < wordLimit ∧
      ∀ r ∈ segs, ∀ a, heapBase segs + size ≤ a → a < heapBase segs + size + nb.toNat →
        findRegion a r = false := by
  have hnb : nb.toNat < wordLimit := nb.toNat_lt
  unfold Granted
  rw [heapTop_layout hother, growHeap_layout hother, Nat.mod_eq_of_lt hno]
  simp only [Option.mem_some_iff, forall_eq', find_layout_iff hother]
  constructor
  · intro h
    rcases Nat.eq_zero_or_pos nb.toNat with h0 | hpos
    · exact .inl h0
    · refine .inr ⟨?_, fun r hr a hle hlt => (h a hle hlt).1 r hr⟩
      have hfound := (findRegion_iff.mp (h _ (Nat.le_refl _) (by omega)).2).2
      simp only [heapOf] at hfound
      unfold wordLimit at *
      omega
  · rintro (h0 | ⟨hlt, hsegs⟩) a hle ha
    · omega
    · refine ⟨fun r hr => hsegs r hr a hle ha, findRegion_iff.mpr ?_⟩
      simp only [heapOf]
      unfold wordLimit at *
      omega

/-- If all ranges are granted the heap has not wrapped. -/
theorem noWrap_of_granted : ∀ (nbs : List UInt32) (size : Nat), heapBase segs + size < wordLimit →
    (∀ i (h : i < nbs.length), Granted (afterMoremem (layout segs size) (nbs.take i)) nbs[i]) →
    heapBase segs + (size + (nbs.map UInt32.toNat).sum) < wordLimit
  | [], size, hno, _ => by simpa using hno
  | nb :: nbs, size, hno, h => by
    have hgranted : Granted (layout segs size) nb := h 0 (Nat.zero_lt_succ _)
    have hfirst := (granted_layout_iff hother hno).mp hgranted
    have hno' : heapBase segs + (nb.toNat + size) < wordLimit := by omega
    have hrest := noWrap_of_granted nbs (nb.toNat + size) hno' fun i hi => by
      have hi' := h (i + 1) (Nat.succ_lt_succ hi)
      rw [List.take_succ_cons, afterMoremem, List.foldl_cons, growHeap_layout hother,
        Nat.mod_eq_of_lt (by omega)] at hi'
      exact hi'
    rw [List.map_cons, List.sum_cons]
    omega

/-- If the segments lie off a heap that does not wrap, all ranges are granted. -/
theorem granted_of_noWrap : ∀ (nbs : List UInt32) (size : Nat),
    heapBase segs + (size + (nbs.map UInt32.toNat).sum) < wordLimit →
    (∀ r ∈ segs, ∀ a, heapBase segs ≤ a →
      a < heapBase segs + (size + (nbs.map UInt32.toNat).sum) → findRegion a r = false) →
    ∀ i (h : i < nbs.length), Granted (afterMoremem (layout segs size) (nbs.take i)) nbs[i]
  | nb :: nbs, size, hno, hsegs, i, hi => by
    rw [List.map_cons, List.sum_cons] at hno hsegs
    cases i with
    | zero =>
      have hgranted : Granted (layout segs size) nb := (granted_layout_iff hother (by omega)).mpr
        (.inr ⟨by omega, fun r hr a hle hlt => hsegs r hr a (by omega) (by omega)⟩)
      exact hgranted
    | succ i =>
      have hrest := granted_of_noWrap nbs (nb.toNat + size) (by omega)
        (fun r hr a hle hlt => hsegs r hr a hle (by omega)) i (Nat.lt_of_succ_lt_succ hi)
      rw [List.take_succ_cons, afterMoremem, List.foldl_cons, growHeap_layout hother,
        Nat.mod_eq_of_lt (by omega)]
      exact hrest

end Layout

/-! ## Above the segments -/

theorem toInt32_of_lt {n : Nat} (h : n < wordLimit / 2) : toInt32 n = n := by
  unfold toInt32
  unfold wordLimit at *
  rw [if_pos (by omega)]
  omega

theorem toInt32_lt (n : Nat) : toInt32 n < wordLimit / 2 := by
  unfold toInt32 wordLimit
  split <;> omega

/-- The highest top is no lower than the others, and is one of them. -/
theorem regionsHighest_bounds (segs : List Region) :
    (∀ r ∈ segs, toInt32 (r.base + r.size) ≤ regionsHighest segs) ∧
      0 ≤ regionsHighest segs ∧ regionsHighest segs < wordLimit / 2 := by
  unfold regionsHighest
  have hfold : ∀ (l : List Region) (top : Int), 0 ≤ top → top < wordLimit / 2 →
      let high := l.foldl (fun top r => max top (toInt32 (r.base + r.size))) top
      (top ≤ high ∧ ∀ r ∈ l, toInt32 (r.base + r.size) ≤ high) ∧
        0 ≤ high ∧ high < wordLimit / 2 := by
    intro l
    induction l with
    | nil => exact fun top h0 hlt => ⟨⟨le_refl _, by simp⟩, h0, hlt⟩
    | cons x l ih =>
      intro top h0 hlt
      obtain ⟨⟨h1, h2⟩, h3⟩ := ih (max top (toInt32 (x.base + x.size))) (h0.trans (le_max_left ..))
        (max_lt hlt (toInt32_lt _))
      refine ⟨⟨(le_max_left ..).trans h1, fun r hr => ?_⟩, h3⟩
      rcases List.mem_cons.mp hr with rfl | hr
      · exact (le_max_right ..).trans h1
      · exact h2 r hr
  obtain ⟨⟨-, h1⟩, h2⟩ := hfold segs 0 (le_refl _) (by decide)
  exact ⟨h1, h2⟩

/-- The segments that end in the lower half lie below the heap. -/
theorem le_heapBase (hr : r ∈ segs) (htop : r.base + r.size < wordLimit / 2) :
    r.base + r.size ≤ heapBase segs := by
  have hhigh := (regionsHighest_bounds segs).1 r hr
  rw [toInt32_of_lt htop] at hhigh
  unfold heapBase pageAlign pageSize
  omega

theorem heapBase_lt (segs : List Region) : heapBase segs < wordLimit := by
  have hhigh := (regionsHighest_bounds segs).2.2
  unfold heapBase pageAlign pageSize
  unfold wordLimit at *
  omega

/-! ## Room for the heap -/

/-- No segment meets the stack, and the heap grows neither into the stack nor over the top of the
address space nor into a segment that ends in the upper half. -/
structure RoomFor (segs : List Region) (total : Nat) : Prop where
  stack : ∀ r ∈ segs, r.Avoids stackBase stackTop
  noWrap : heapBase segs + total < wordLimit
  heap : total = 0 ∨ heapBase segs + total ≤ stackBase ∨ stackTop ≤ heapBase segs
  upper : ∀ r ∈ segs, wordLimit / 2 ≤ r.base + r.size →
    r.Avoids (heapBase segs) (heapBase segs + total)

theorem stackBase_add : stackBase + oneMeg = stackTop := by decide

theorem stackTop_lt : stackTop < wordLimit := by decide

theorem disjoint_stack_iff : r.Disjoint stackOf ↔ r.Avoids stackBase stackTop := by
  rw [Region.disjoint_iff]
  unfold Region.Avoids
  dsimp only [stackOf]
  have hadd := stackBase_add
  have hmeg : oneMeg ≠ 0 := by decide
  omega

theorem disjoint_heap_iff {size : Nat} :
    r.Disjoint (heapOf segs size) ↔ r.Avoids (heapBase segs) (heapBase segs + size) := by
  rw [Region.disjoint_iff]
  unfold Region.Avoids
  dsimp only [heapOf]
  omega

theorem heap_disjoint_stack_iff {size : Nat} : (heapOf segs size).Disjoint stackOf ↔
    size = 0 ∨ heapBase segs + size ≤ stackBase ∨ stackTop ≤ heapBase segs := by
  rw [disjoint_stack_iff]
  unfold Region.Avoids
  dsimp only [heapOf]
  have hadd := stackBase_add
  have hmeg : oneMeg ≠ 0 := by decide
  omega

theorem pairwise_layout_iff {size : Nat} : (layout segs size).Pairwise Region.Disjoint ↔
    segs.Pairwise Region.Disjoint ∧ (heapOf segs size).Disjoint stackOf ∧
      ∀ r ∈ segs, r.Disjoint (heapOf segs size) ∧ r.Disjoint stackOf := by
  unfold layout
  simp [List.pairwise_append]

theorem laidOut_layout_iff (hother : ∀ r ∈ segs, r.type = .other)
    (hdis : segs.Pairwise Region.Disjoint) (hwrap : ∀ r ∈ segs, r.base + r.size < wordLimit)
    (nbs : List UInt32) :
    LaidOut (layout segs 0) nbs ↔ RoomFor segs (nbs.map UInt32.toNat).sum := by
  have hafter := afterMoremem_layout hother nbs 0 (by decide)
  have hbase := heapBase_lt segs
  rw [Nat.zero_add] at hafter
  constructor
  · intro h
    have hno := noWrap_of_granted hother nbs 0 (by omega) h.granted
    rw [Nat.zero_add] at hno
    have hpair := h.disjoint
    rw [hafter, Nat.mod_eq_of_lt (by omega), pairwise_layout_iff] at hpair
    exact
      { stack := fun r hr => disjoint_stack_iff.mp (hpair.2.2 r hr).2
        noWrap := hno
        heap := heap_disjoint_stack_iff.mp hpair.2.1
        upper := fun r hr _ => disjoint_heap_iff.mp (hpair.2.2 r hr).1 }
  · intro h
    have hno := h.noWrap
    -- a segment is off the heap: below it, or as the condition says
    have hoff : ∀ r ∈ segs, r.Avoids (heapBase segs)
        (heapBase segs + (nbs.map UInt32.toNat).sum) := by
      intro r hr
      by_cases htop : r.base + r.size < wordLimit / 2
      · exact .inr (.inr (.inl (le_heapBase hr htop)))
      · exact h.upper r hr (Nat.le_of_not_lt htop)
    rw [Nat.mod_eq_of_lt (by omega)] at hafter
    constructor
    · rw [hafter, pairwise_layout_iff]
      exact ⟨hdis, heap_disjoint_stack_iff.mpr h.heap, fun r hr =>
        ⟨disjoint_heap_iff.mpr (hoff r hr), disjoint_stack_iff.mpr (h.stack r hr)⟩⟩
    · rw [hafter]
      intro r hr
      rcases List.mem_append.mp hr with hr | hr
      · exact hwrap r hr
      · rcases List.mem_pair.mp hr with rfl | rfl
        · exact hno
        · exact stackBase_add ▸ stackTop_lt
    · refine granted_of_noWrap hother nbs 0 (by omega) fun r hr a hle hlt => ?_
      rw [Bool.eq_false_iff, ne_eq, findRegion_iff, Nat.mod_eq_of_lt (hwrap r hr)]
      have havoid := hoff r hr
      unfold Region.Avoids at havoid
      omega

/-! ## A loaded process -/

variable {k : Kernel} {pid : Pid} {entries : Page → Pte}

/-- `SOS_MOREMEM` gives the caller the old end of the heap, and grows the heap in its regions. -/
theorem moremem_grows {base : Nat} (hp : k.sosProcs pid = .pcb p)
    (hbase : heapTop p.regions = some base) (nb : Nat) :
    Wp (moremem pid nb) k
      (fun _ k' => readWord k'.copyInOutBuffer (pagerBuffer pid) = base ∧
        ∃ p', k'.sosProcs pid = .pcb p' ∧ p'.regions = growHeap nb p.regions)
      fun _ _ => False := by
  obtain ⟨heap, hheap, rfl⟩ := Option.map_eq_some_iff.mp hbase
  refine (moremem_spec hp hheap).imp fun _ k' h => ⟨?_, _, h.2, rfl⟩
  rw [h.1]
  exact readWord_writeWord k.copyInOutBuffer (a := pagerBuffer pid)
    (Nat.mod_lt (heap.base + heap.size) (by decide : 0 < wordLimit))

theorem Process.Has.mem_regions (h : p.Has (phs.map ProgramHeader.plainRegion) entries)
    (hr : r ∈ p.regions) : ∃ ph ∈ phs, ph.plainRegion = { r with elffile := none } := by
  have hmem := List.mem_map_of_mem (f := fun r : Region => { r with elffile := none }) hr
  rw [h.regions] at hmem
  exact List.mem_map.mp hmem

theorem Process.Has.pairwise_regions (h : p.Has (phs.map ProgramHeader.plainRegion) entries)
    (hdis : phs.Pairwise fun ph ph' => ph.plainRegion.Disjoint ph'.plainRegion) :
    p.regions.Pairwise Region.Disjoint := by
  have hmap := List.pairwise_map.mpr hdis
  rw [← h.regions, List.pairwise_map] at hmap
  exact hmap

/-- With neither heap nor stack there are only the segments. -/
theorem laidOut_of_segments (hother : ∀ r ∈ segs, r.type = .other)
    (hdis : segs.Pairwise Region.Disjoint) (hwrap : ∀ r ∈ segs, r.base + r.size < wordLimit)
    (nbs : List UInt32) : LaidOut segs nbs := by
  have hgrow : ∀ nb, growHeap nb segs = segs := fun nb => by
    have happ := growHeap_append hother nb []
    rw [growHeap, List.append_nil] at happ
    exact happ
  have hafter : ∀ nbs, afterMoremem segs nbs = segs := fun nbs => by
    induction nbs with
    | nil => rfl
    | cons nb nbs ih => rw [afterMoremem, List.foldl_cons, hgrow]; exact ih
  have hnone : segs.find? (·.type = .heap) = none :=
    List.find?_eq_none.mpr fun r hr => by simp [hother r hr]
  refine ⟨?_, ?_, fun i hi base hbase => ?_⟩
  · rw [hafter]
    exact hdis
  · rw [hafter]
    exact hwrap
  · rw [hafter, heapTop, hnone] at hbase
    simp at hbase

/-- **The regions stay disjoint exactly where there is room.** The segments of the program headers,
the heap and the stack are disjoint and do not wrap after any calls of `SOS_MOREMEM`, and every
range that a call grants is found in the heap, exactly if the segments leave room for the stack and
for a heap of the sum of the calls. A process none of whose segments is seen to end above 0 gets
neither heap nor stack. -/
theorem regions_laid_out_iff (h : p.Has (phs.map ProgramHeader.plainRegion) entries)
    (hdis : phs.Pairwise fun ph ph' => ph.plainRegion.Disjoint ph'.plainRegion)
    (hwrap : ∀ ph ∈ phs, ph.vaddr + ph.memsz < wordLimit) (nbs : List UInt32) :
    LaidOut (addBuiltinRegions p).regions nbs ↔
      regionsHighest p.regions = 0 ∨ RoomFor p.regions (nbs.map UInt32.toNat).sum := by
  have hother : ∀ r ∈ p.regions, r.type = .other := by
    intro r hr
    obtain ⟨ph, -, heq⟩ := h.mem_regions hr
    exact (congrArg Region.type heq).symm
  have hsegs : ∀ r ∈ p.regions, r.base + r.size < wordLimit := by
    intro r hr
    obtain ⟨ph, hph, heq⟩ := h.mem_regions hr
    have hbase : ph.vaddr = r.base := congrArg Region.base heq
    have hsize : ph.memsz = r.size := congrArg Region.size heq
    rw [← hbase, ← hsize]
    exact hwrap ph hph
  have hpair := h.pairwise_regions hdis
  by_cases hzero : regionsHighest p.regions = 0
  · refine iff_of_true ?_ (.inl hzero)
    unfold addBuiltinRegions
    rw [if_pos hzero]
    exact laidOut_of_segments hother hpair hsegs nbs
  · rw [addBuiltinRegions_eq_layout hzero, laidOut_layout_iff hother hpair hsegs,
      or_iff_right hzero]

/-! ## A large heap -/

/-- One segment from 64 KiB to 128 KiB. -/
def lowSegment : ProgramHeader :=
  { vaddr := 0x10000, memsz := 0x10000, filesz := 0, offset := 0, flags := 0 }

def lowProcess : Process :=
  { psType := .process, pagetable := { frame := 0, pages2 := fun _ => none }, inc := 0
    regions := [lowSegment.plainRegion] }

theorem lowProcess_has :
    lowProcess.Has ([lowSegment].map ProgramHeader.plainRegion) fun _ => {} := ⟨rfl, rfl⟩

/-- Two calls for a page and for a megabyte. -/
theorem regions_laid_out_iff_lowSegment :
    LaidOut (addBuiltinRegions lowProcess).regions [0x1000, 0x100000] := by
  refine (regions_laid_out_iff lowProcess_has (List.pairwise_singleton _ _) (by decide) _).mpr
    (.inr ?_)
  constructor <;> decide

/-- One call for almost 2 GiB: the heap grows over the stack. -/
theorem lowProcess_heap_meets_stack :
    ¬ LaidOut (addBuiltinRegions lowProcess).regions [0x7FF00000] := by
  intro h
  rw [addBuiltinRegions_eq_layout (by decide)] at h
  have hroom := (laidOut_layout_iff (by decide)
    (List.pairwise_singleton _ lowSegment.plainRegion) (by decide) [0x7FF00000]).mp h
  exact absurd hroom.heap (by decide)

end Sos
