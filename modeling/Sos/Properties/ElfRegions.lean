import Sos.Simulation.Load
import Sos.Run

/-!
# The regions of an executable

`continueElfload` enters the pages of a segment in the page table as being on the ELF file
(`setRegionOnElf`). The loop steps from the start of the segment, which need not be the start of a
page, in whole pages, and counts modulo 2^32.
-/

namespace Sos

open Hoare

variable {k : Kernel} {pt : Pagetable} {r : Region} {addr : Nat} {ph : ProgramHeader}

/-! ## The loop -/

/-- How many pages the loop is at before its counter has passed `size`. -/
def elfRounds (size : Nat) : Nat := (size + (pageSize - 1)) / pageSize

/-- The addresses it looks up from the `i`-th round on. -/
def elfSteps (base i m : Nat) : List Nat := (List.range' i m).map fun j => base + j * pageSize

/-- What it writes for the `j`-th page. -/
def elfPte (addr j : Nat) : Pte :=
  { addr := (addr + j * pageSize) % wordLimit, swap := true, elf := true }

theorem missingTables_setEntry (n : Page) (e : Pte) (pages : List Nat) :
    (pt.setEntry n e).missingTables pages = pt.missingTables pages := by
  have hnone : ∀ i, ((pt.setEntry n e).pages2 i).isNone = (pt.pages2 i).isNone := fun i => by
    rw [← Option.isNone_map, Pagetable.pages2_setEntry, Option.isNone_map]
  unfold Pagetable.missingTables
  simp only [hnone]

/-- A table that is there is not missing. -/
theorem missingTables_cons_of_some {a : Nat} {t : Pagetable2} (pages : List Nat)
    (h : pt.pages2 (offset1 (pageNo a)) = some t) :
    pt.missingTables (a :: pages) = pt.missingTables pages := by
  unfold Pagetable.missingTables
  rw [List.map_cons, List.toFinset_cons, Finset.filter_insert, h]
  simp

/-- A table that is made was missing, and is no longer. -/
theorem card_missingTables_cons_of_none {a f : Nat} (pages : List Nat)
    (h : pt.pages2 (offset1 (pageNo a)) = none) :
    (pt.missingTables (a :: pages)).card =
      ((pt.addTable (offset1 (pageNo a)) f).missingTables pages).card + 1 := by
  have hmade : (pt.addTable (offset1 (pageNo a)) f).missingTables pages =
      (pt.missingTables pages).erase (offset1 (pageNo a)) := by
    ext i
    unfold Pagetable.missingTables Pagetable.addTable
    by_cases hi : i = offset1 (pageNo a)
    · subst hi
      simp
    · simp [hi]
  have hcons : pt.missingTables (a :: pages) =
      insert (offset1 (pageNo a)) ((pt.missingTables pages).erase (offset1 (pageNo a))) := by
    ext i
    unfold Pagetable.missingTables
    by_cases hi : i = offset1 (pageNo a)
    · subst hi
      simp [h]
    · simp [hi]
  rw [hcons, hmade, Finset.card_insert_of_notMem (Finset.notMem_erase _ _)]

/-- The free list is one frame shorter. -/
theorem length_freeFrames {f : Nat} {rest : List Nat} (h : k.free = f :: rest) (hf : f ≠ 0) :
    k.freeFrames.length = (k.frameTaken rest).freeFrames.length + 1 := by
  unfold Kernel.freeFrames Kernel.frameTaken
  simp [h, hf]

/-- The page of the `j`-th round. -/
theorem pageNo_step {base j : Nat} (h : base + j * pageSize < wordLimit) :
    (pageNo (base + j * pageSize)).val = base / pageSize + j := by
  show (base + j * pageSize) % wordLimit / pageSize = _
  unfold wordLimit pageSize at *
  omega

/-- The entries after the rounds from `i` on. -/
def elfEntries (pt : Pagetable) (base addr i m : Nat) (n : Page) : Pte :=
  if base / pageSize + i ≤ n.val ∧ n.val < base / pageSize + (i + m) then
    elfPte addr (n.val - base / pageSize)
  else pt.entry n

/-- One round more. -/
theorem elfEntries_succ {pt' : Pagetable} {base i m : Nat} (h : base + i * pageSize < wordLimit)
    (hpt : pt'.entry = Function.update pt.entry (pageNo (base + i * pageSize)) (elfPte addr i)) :
    elfEntries pt' base addr (i + 1) m = elfEntries pt base addr i (m + 1) := by
  have hpage := pageNo_step h
  funext n
  unfold elfEntries
  rw [hpt]
  by_cases hn : n = pageNo (base + i * pageSize)
  · subst hn
    rw [Function.update_self, hpage, if_neg (by omega), if_pos (by omega)]
    congr 1
    omega
  · have hne : n.val ≠ base / pageSize + i := fun hv => hn (Fin.ext (hv.trans hpage.symm))
    rw [Function.update_of_ne hn]
    by_cases hin : base / pageSize + (i + 1) ≤ n.val ∧ n.val < base / pageSize + (i + 1 + m)
    · rw [if_pos hin, if_pos (by omega)]
    · rw [if_neg hin, if_neg (by omega)]

theorem elfRounds_le {size : Nat} (h : size ≤ wordLimit - pageSize) :
    elfRounds size * pageSize ≤ wordLimit - pageSize := by
  unfold elfRounds wordLimit pageSize at *
  omega

theorem lt_elfRounds_iff {size i : Nat} : i < elfRounds size ↔ i * pageSize < size := by
  unfold elfRounds pageSize
  omega

/-- The counter does not wrap before the last round. -/
theorem elfRounds_next {size i : Nat} (hsize : size ≤ wordLimit - pageSize)
    (hi : i < elfRounds size) : (i * pageSize + pageSize) % wordLimit = (i + 1) * pageSize := by
  have hle := elfRounds_le hsize
  have hmul : (i + 1) * pageSize ≤ elfRounds size * pageSize := Nat.mul_le_mul_right _ hi
  unfold wordLimit pageSize at *
  omega

theorem entry_setEntry_addTable {pt : Pagetable} {n : Page} {f : Nat} {e : Pte}
    (hnone : pt.pages2 (offset1 n) = none) :
    ((pt.addTable (offset1 n) f).setEntry n e).entry = Function.update pt.entry n e := by
  have hmade : (pt.addTable (offset1 n) f).pages2 (offset1 n) = some ⟨f, fun _ => {}⟩ :=
    Function.update_self ..
  rw [Pagetable.entry_setEntry hmade, Pagetable.entry_addTable hnone]

/-- The loop enters the pages it steps through, if there are frames for the tables they need; else
it stops. -/
theorem setRegionOnElfLoop_spec (addr : Nat) (hsize : r.size ≤ wordLimit - pageSize)
    (htop : r.base + r.size ≤ wordLimit) : ∀ (m i n : Nat) (pt : Pagetable) (k : Kernel),
    i + m = elfRounds r.size → m < n →
    Wp (setRegionOnElfLoop r addr n (i * pageSize) pt) k
      (fun pt' _ => (pt.missingTables (elfSteps r.base i m)).card ≤ k.freeFrames.length ∧
        pt'.entry = elfEntries pt r.base addr i m)
      (fun _ _ => k.freeFrames.length < (pt.missingTables (elfSteps r.base i m)).card)
  | 0, i, n + 1, pt, k, hi, _ => by
    have hend : ¬ i * pageSize < r.size := by
      rw [← lt_elfRounds_iff]
      omega
    rw [setRegionOnElfLoop, if_neg hend]
    refine wp_pure.mpr ⟨Nat.zero_le _, funext fun n => (if_neg (by omega)).symm⟩
  | m + 1, i, n + 1, pt, k, hi, hn => by
    have hgo : i * pageSize < r.size := lt_elfRounds_iff.mp (by omega)
    have hlt : r.base + i * pageSize < wordLimit := by omega
    have hsteps : elfSteps r.base i (m + 1) =
        (r.base + i * pageSize) :: elfSteps r.base (i + 1) m := by
      unfold elfSteps
      rw [List.range'_succ, List.map_cons]
    have hrest := fun pt' k' => setRegionOnElfLoop_spec addr hsize htop m (i + 1) n pt' k'
      (by omega) (by omega)
    rw [setRegionOnElfLoop, if_pos hgo, wp_bind, elfRounds_next hsize (by omega),
      wp_pagetableLookup, hsteps]
    refine ⟨fun t ht => ?_, fun hnone => ⟨fun hfree => ?_, fun f rest hfree hf => ?_⟩⟩
    · rw [missingTables_cons_of_some _ ht]
      have hspec := hrest (pt.setEntry (pageNo (r.base + i * pageSize)) (elfPte addr i)) k
      rw [missingTables_setEntry, elfEntries_succ hlt (Pagetable.entry_setEntry ht)] at hspec
      exact hspec
    · rw [card_missingTables_cons_of_none (f := 0) _ hnone, hfree]
      exact Nat.succ_pos _
    · rw [card_missingTables_cons_of_none (f := f) _ hnone, length_freeFrames hfree hf]
      have hspec := hrest ((pt.addTable (offset1 (pageNo (r.base + i * pageSize))) f).setEntry
        (pageNo (r.base + i * pageSize)) (elfPte addr i)) (k.frameTaken rest)
      rw [missingTables_setEntry, elfEntries_succ hlt (entry_setEntry_addTable hnone)] at hspec
      exact hspec.mono (fun _ _ h => ⟨Nat.succ_le_succ h.1, h.2⟩) fun _ _ h => Nat.succ_lt_succ h

/-- With a size above 2^32 - `PAGESIZE` every value of the counter is below it: the loop never
ends. -/
theorem setRegionOnElfLoop_endless (addr : Nat) (hsize : wordLimit - pageSize < r.size) :
    ∀ (n size : Nat) (pt : Pagetable) (k : Kernel), size % pageSize = 0 → size < wordLimit →
      Wp (setRegionOnElfLoop r addr n size pt) k (fun _ _ => False) (fun _ _ => True)
  | 0, _, _, _, _, _ => wp_throw.mpr trivial
  | n + 1, size, pt, k, hdvd, hlt => by
    have hgo : size < r.size := by
      unfold wordLimit pageSize at *
      omega
    have hrest := fun pt' k' => setRegionOnElfLoop_endless addr hsize n
      ((size + pageSize) % wordLimit)
      pt' k' (by unfold wordLimit pageSize at *; omega) (Nat.mod_lt _ (by decide))
    rw [setRegionOnElfLoop, if_pos hgo, wp_bind, wp_pagetableLookup]
    exact ⟨fun _ _ => hrest _ _, fun _ => ⟨fun _ => trivial, fun _ _ _ _ => hrest _ _⟩⟩

/-! ## Segments -/

/-- A program header as the linker makes them: the segment lies within the address space, and
address and file offset have the same place in their page. -/
structure ProgramHeader.Fits (ph : ProgramHeader) : Prop where
  word : ph.vaddr < wordLimit ∧ ph.memsz < wordLimit ∧ ph.offset < wordLimit
  congr : ph.vaddr % pageSize = ph.offset % pageSize
  top : ph.vaddr + ph.memsz ≤ wordLimit

/-- The region of a segment, as `addSegment` makes it. -/
def ProgramHeader.region (ph : ProgramHeader) (elffile : Nat) : Region :=
  { type := .other, base := ph.vaddr, size := ph.memsz, rights := ph.flags
    filesize := ph.filesz, elffile := some elffile }

/-- The entry the page of an address of the segment is to have. -/
def ProgramHeader.pte (ph : ProgramHeader) (a : Nat) : Pte :=
  { addr := (pageAlign ph.offset + (pageAlign a - pageAlign ph.vaddr)) % wordLimit
    swap := true, elf := true }

/-- `setRegionOnElf` returns; every page of the segment has its entry, and the entries of the other
pages are as before. -/
def ProgramHeader.Registered (ph : ProgramHeader) (elffile : Nat) (pt : Pagetable) (k : Kernel) :
    Prop :=
  ∃ pt' k', setRegionOnElf pt (ph.region elffile) (pageAlign ph.offset) k = .ok pt' k' ∧
    (∀ a, ph.vaddr ≤ a → a < ph.vaddr + ph.memsz → pt'.entry (pageNo a) = ph.pte a) ∧
    ∀ n, (∀ a, ph.vaddr ≤ a → a < ph.vaddr + ph.memsz → pageNo a ≠ n) → pt'.entry n = pt.entry n

/-- The loop gets to the last page of the segment. -/
def ProgramHeader.Reaches (ph : ProgramHeader) : Prop :=
  ph.memsz = 0 ∨ ph.vaddr % pageSize + ph.memsz ≤ elfRounds ph.memsz * pageSize

/-- The counter passes the size, the last page is reached or has its entry already, and there are
frames for the page tables. -/
structure ProgramHeader.Registrable (ph : ProgramHeader) (pt : Pagetable) (k : Kernel) : Prop where
  ends : ph.memsz ≤ wordLimit - pageSize
  last : ph.Reaches ∨
    pt.entry (pageNo (ph.vaddr + ph.memsz - 1)) = ph.pte (ph.vaddr + ph.memsz - 1)
  tables : (pt.missingTables (elfSteps ph.vaddr 0 (elfRounds ph.memsz))).card ≤ k.freeFrames.length

variable {elffile : Nat}

theorem setRegionOnElf_iff {Q : Pagetable → Kernel → Prop} {E : Fault → Kernel → Prop} :
    Wp (setRegionOnElf pt r (pageAlign addr)) k Q E ↔
      Wp (setRegionOnElfLoop r (pageAlign addr) (wordLimit / pageSize + 1) 0 pt) k Q E := by
  unfold setRegionOnElf
  rw [wp_bind, wp_assert]
  simp

theorem setRegionOnElf_spec (elffile : Nat) (pt : Pagetable) (k : Kernel) (hfits : ph.Fits)
    (hends : ph.memsz ≤ wordLimit - pageSize) :
    Wp (setRegionOnElf pt (ph.region elffile) (pageAlign ph.offset)) k
      (fun pt' _ =>
        (pt.missingTables (elfSteps ph.vaddr 0 (elfRounds ph.memsz))).card ≤ k.freeFrames.length ∧
          pt'.entry = elfEntries pt ph.vaddr (pageAlign ph.offset) 0 (elfRounds ph.memsz))
      (fun _ _ => k.freeFrames.length <
        (pt.missingTables (elfSteps ph.vaddr 0 (elfRounds ph.memsz))).card) := by
  rw [setRegionOnElf_iff]
  have hspec := setRegionOnElfLoop_spec (r := ph.region elffile) (pageAlign ph.offset)
    hends hfits.top (elfRounds ph.memsz) 0 (wordLimit / pageSize + 1) pt k (Nat.zero_add _) (by
      have := elfRounds_le hends
      unfold wordLimit pageSize at *
      omega)
  rw [Nat.zero_mul] at hspec
  exact hspec

/-- The entry the loop writes for the page of an address is the one it is to have. -/
theorem elfPte_eq_pte {a : Nat} (ha : ph.vaddr ≤ a) :
    elfPte (pageAlign ph.offset) (a / pageSize - ph.vaddr / pageSize) = ph.pte a := by
  have hle : ph.vaddr / pageSize ≤ a / pageSize := Nat.div_le_div_right ha
  unfold elfPte ProgramHeader.pte
  congr 2
  unfold pageAlign
  rw [Nat.sub_mul]

theorem pageNo_val {a : Nat} (h : a < wordLimit) : (pageNo a).val = a / pageSize := by
  show a % wordLimit / pageSize = _
  rw [Nat.mod_eq_of_lt h]

/-- The pages of the segment are those of the rounds, and one more if the loop does not reach the
last. -/
theorem div_pageSize_lt {a : Nat} (ha : ph.vaddr ≤ a) (hlt : a < ph.vaddr + ph.memsz) :
    a / pageSize < ph.vaddr / pageSize + elfRounds ph.memsz ∨
      ¬ ph.Reaches ∧ a / pageSize = ph.vaddr / pageSize + elfRounds ph.memsz ∧
        (ph.vaddr + ph.memsz - 1) / pageSize = a / pageSize := by
  unfold ProgramHeader.Reaches elfRounds pageSize
  omega

theorem registered_of_registrable (hfits : ph.Fits) (h : ph.Registrable pt k) :
    ph.Registered elffile pt k := by
  have htop := hfits.top
  have hspec := setRegionOnElf_spec elffile pt k hfits h.ends
  obtain ⟨pt', k', hok, -, hentry⟩ := (hspec.mono (fun _ _ h => h) fun _ _ hfew =>
    absurd h.tables (Nat.not_le.mpr hfew)).returns
  refine ⟨pt', k', hok, fun a ha hlt => ?_, fun n hn => ?_⟩
  · have hno := pageNo_val (show a < wordLimit by omega)
    rw [hentry]
    unfold elfEntries
    rw [hno]
    rcases div_pageSize_lt ha hlt with hin | ⟨hnot, hpage, hlast⟩
    · have hle : ph.vaddr / pageSize ≤ a / pageSize := Nat.div_le_div_right ha
      rw [if_pos ⟨by omega, by omega⟩]
      exact elfPte_eq_pte ha
    · rw [if_neg (by omega)]
      have hsame : pageNo (ph.vaddr + ph.memsz - 1) = pageNo a :=
        Fin.ext (by rw [pageNo_val (by omega), hno, hlast])
      have hpte : ph.pte (ph.vaddr + ph.memsz - 1) = ph.pte a := by
        unfold ProgramHeader.pte pageAlign
        rw [hlast]
      rw [← hsame, ← hpte]
      exact h.last.resolve_left hnot
  · rw [hentry]
    refine if_neg fun hin => ?_
    -- the page of a round holds the address the round looks up
    have hj : (n.val - ph.vaddr / pageSize) * pageSize < ph.memsz := lt_elfRounds_iff.mp (by omega)
    refine hn (ph.vaddr + (n.val - ph.vaddr / pageSize) * pageSize) (by omega) (by omega) ?_
    apply Fin.ext
    rw [pageNo_step (by omega)]
    omega

theorem registrable_of_registered (hfits : ph.Fits) (h : ph.Registered elffile pt k) :
    ph.Registrable pt k := by
  have htop := hfits.top
  obtain ⟨pt', k', hok, hin, -⟩ := h
  have hends : ph.memsz ≤ wordLimit - pageSize := by
    by_contra hbig
    have hendless := setRegionOnElfLoop_endless (r := ph.region elffile) (pageAlign ph.offset)
      (by show _ < ph.memsz; omega) (wordLimit / pageSize + 1) 0 pt k rfl (by decide)
    exact (setRegionOnElf_iff.mpr hendless).ok hok
  obtain ⟨htables, hentry⟩ := (setRegionOnElf_spec elffile pt k hfits hends).ok hok
  refine ⟨hends, ?_, htables⟩
  by_cases hreach : ph.Reaches
  · exact .inl hreach
  · right
    have hpos : ph.memsz ≠ 0 := fun h0 => hreach (.inl h0)
    have hpage : (ph.vaddr + ph.memsz - 1) / pageSize =
        ph.vaddr / pageSize + elfRounds ph.memsz := by
      unfold ProgramHeader.Reaches elfRounds pageSize at *
      omega
    have hlast := hin (ph.vaddr + ph.memsz - 1) (by omega) (by omega)
    rw [hentry] at hlast
    unfold elfEntries at hlast
    rwa [pageNo_val (by omega), if_neg (by omega)] at hlast

/-- **The pages of a segment are all entered exactly when it is registrable.** A segment whose last
page is only reached because its start is not aligned misses that page, one larger than
2^32 - `PAGESIZE` keeps the loop going for ever, and tables for which there is no frame are written
to all the same. -/
theorem elf_region_registered_iff (hfits : ph.Fits) :
    ph.Registered elffile pt k ↔ ph.Registrable pt k :=
  ⟨registrable_of_registered hfits, registered_of_registrable hfits⟩

/-- Two pages from the start of a page. -/
def alignedSegment : ProgramHeader :=
  { offset := 0x1000, vaddr := 0x10000, filesz := 0x1800, memsz := 0x1800, flags := 7 }

/-- One page of memory from the middle of a page on: two pages overlap it. -/
def unalignedSegment : ProgramHeader :=
  { offset := 0x800, vaddr := 0x10800, filesz := 0x1000, memsz := 0x1000, flags := 7 }

/-- What `pagetable_init` makes. -/
def emptyTable : Pagetable := { frame := 0x9000, pages2 := fun _ => none }

theorem elf_region_registered_iff_aligned :
    alignedSegment.Fits ∧ alignedSegment.Registered 0xa000 emptyTable (coldStart 4) := by
  have hfits : alignedSegment.Fits := ⟨by decide, by decide, by decide⟩
  exact ⟨hfits, (elf_region_registered_iff hfits).mpr
    ⟨by decide, .inl (.inr (by decide)), by decide⟩⟩

theorem unaligned_segment_not_registered :
    unalignedSegment.Fits ∧ ¬ unalignedSegment.Registered 0xa000 emptyTable (coldStart 4) := by
  have hfits : unalignedSegment.Fits := ⟨by decide, by decide, by decide⟩
  refine ⟨hfits, fun h => ?_⟩
  rcases (registrable_of_registered hfits h).last with hreach | hentry
  · exact absurd hreach (by unfold ProgramHeader.Reaches; decide)
  · exact absurd hentry (by decide)

end Sos
