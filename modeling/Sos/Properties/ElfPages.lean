import Sos.Properties.ElfRegions
import Sos.Transfer

/-!
# The contents of a page of an executable

A page that is on the ELF file is read from it into the pinned frame, and `finishSwapelf` then
clears what lies behind the end of the file. It does so only in the page the file part of the region
ends in, with one `memset` up to the end of the region.
-/

namespace Sos

open Hoare AllRuns

variable {k k₀ : Kernel} {ph : ProgramHeader} {r : Region} {addr : Nat} {file : Nat → UInt8}
  {pr : PagerRequest} {rest : List Request} {d : Disk}

/-! ## Regions and pages -/

/-- A region `addSegment` has made. -/
structure Region.IsElf (r : Region) : Prop where
  word : r.base < wordLimit ∧ r.size < wordLimit
  filesize : r.filesize ≤ r.size
  elffile : r.elffile.isSome

/-- A segment that lies within its file. -/
structure ProgramHeader.InFile (ph : ProgramHeader) : Prop extends ph.Fits where
  filesz : ph.filesz ≤ ph.memsz
  last : ph.offset + ph.filesz ≤ wordLimit

/-- An address of the segment in the page of `addr`. -/
def ProgramHeader.InPage (ph : ProgramHeader) (addr a : Nat) : Prop :=
  ph.vaddr ≤ a ∧ a < ph.vaddr + ph.memsz ∧ pageAlign a = pageAlign addr

/-- `finishSwapelf` clears something after a fault on `addr`. -/
def Region.Clears (r : Region) (addr : Nat) : Prop :=
  pageAlign (r.base + r.filesize) = pageAlign addr

/-- A region that has an address in it does not reach the end of the address space. -/
theorem Region.IsElf.top (h : r.IsElf) (hfound : findRegion addr r = true) :
    r.base + r.size < wordLimit := by
  have hword := h.word
  unfold findRegion at hfound
  have hin : r.base ≤ addr ∧ addr < (r.base + r.size) % wordLimit := of_decide_eq_true hfound
  unfold wordLimit at *
  omega

/-- The place in the file the page is read from, and that of an address of the file part. -/
theorem ProgramHeader.InFile.place (h : ph.InFile) {a : Nat} (ha : ph.InPage addr a)
    (hfile : a < ph.vaddr + ph.filesz) :
    (ph.pte addr).addr + pageOffset a = ph.offset + (a - ph.vaddr) := by
  obtain ⟨hle, -, hpage⟩ := ha
  have hcongr := h.congr
  have hlast := h.last
  show (pageAlign ph.offset + (pageAlign addr - pageAlign ph.vaddr)) % wordLimit + pageOffset a = _
  rw [← hpage]
  unfold pageAlign pageOffset wordLimit pageSize at *
  omega

/-! ## What the frame holds in the end -/

/-- Memory after `g` has been read into the frame `pin` and its tail cleared. -/
def elfMemory (r : Region) (addr : Nat) (m : Nat → UInt8) (pin : Nat) (g : Nat → UInt8) :
    Nat → UInt8 :=
  if pageAlign (r.base + r.filesize) = pageAlign addr then
    blit (blit m pin pageSize g) (pin + pageOffset (r.base + r.filesize)) (r.size - r.filesize)
      (fun _ => 0)
  else blit m pin pageSize g

/-- The addresses that have been cleared. -/
def Region.Cleared (r : Region) (addr a : Nat) : Prop :=
  r.Clears addr ∧ r.base + r.filesize ≤ a ∧ a < r.base + r.size

instance (r : Region) (addr a : Nat) : Decidable (r.Cleared addr a) :=
  inferInstanceAs (Decidable (_ = _ ∧ _ ∧ _))

theorem elfMemory_inside {m g : Nat → UInt8} {pin a : Nat} (h : r.filesize ≤ r.size)
    (ha : pageAlign a = pageAlign addr) :
    elfMemory r addr m pin g (pin + pageOffset a) =
      if r.Cleared addr a then 0 else g (pageOffset a) := by
  have hin : blit m pin pageSize g (pin + pageOffset a) = g (pageOffset a) :=
    blit_apply (Nat.mod_lt _ (by decide))
  unfold elfMemory
  by_cases hpage : pageAlign (r.base + r.filesize) = pageAlign addr
  · have hiff : (pin + pageOffset (r.base + r.filesize) ≤ pin + pageOffset a ∧
        pin + pageOffset a < pin + pageOffset (r.base + r.filesize) + (r.size - r.filesize)) ↔
          r.base + r.filesize ≤ a ∧ a < r.base + r.size := by
      unfold pageAlign pageOffset pageSize at *
      omega
    rw [if_pos hpage, blit, hin]
    by_cases hc : r.base + r.filesize ≤ a ∧ a < r.base + r.size
    · rw [if_pos (hiff.mpr hc), if_pos ⟨hpage, hc⟩]
    · rw [if_neg (fun hb => hc (hiff.mp hb)), if_neg fun hb => hc hb.2]
  · rw [if_neg hpage, if_neg fun hc => hpage hc.1, hin]

/-- The `memset` ends within the frame. -/
def Region.StaysInFrame (r : Region) (addr : Nat) : Prop :=
  r.Clears addr → pageOffset (r.base + r.filesize) + (r.size - r.filesize) ≤ pageSize

theorem elfMemory_outside {m g : Nat → UInt8} {pin b : Nat} (h : r.StaysInFrame addr)
    (hb : b < pin ∨ pin + pageSize ≤ b) : elfMemory r addr m pin g b = m b := by
  have hout : blit m pin pageSize g b = m b := if_neg (by omega)
  unfold elfMemory
  split
  · next hpage =>
    have hle := h hpage
    rw [blit, if_neg (by omega), hout]
  · exact hout

/-- The first byte behind the frame is cleared if the `memset` gets there. -/
theorem elfMemory_behind {m g : Nat → UInt8} {pin : Nat} (h : ¬ r.StaysInFrame addr) :
    elfMemory r addr m pin g (pin + pageSize) = 0 := by
  unfold Region.StaysInFrame at h
  push Not at h
  obtain ⟨hpage, hgt⟩ := h
  have hlt : pageOffset (r.base + r.filesize) < pageSize := Nat.mod_lt _ (by decide)
  unfold elfMemory
  rw [if_pos (show pageAlign _ = _ from hpage), blit, if_pos (by omega)]

/-! ## `finishSwapelf` -/

theorem zeroTail_returns (helf : r.IsElf) (hfound : findRegion addr r = true) {g : Nat → UInt8}
    (hmem : k.memory = blit k₀.memory k.pinnedFrame pageSize g) :
    Returns (zeroTail r addr) k ()
      { k with memory := elfMemory r addr k₀.memory k.pinnedFrame g } := by
  have htop := helf.top hfound
  have hfile := helf.filesize
  have hmod : (r.base + r.filesize) % wordLimit = r.base + r.filesize :=
    Nat.mod_eq_of_lt (by omega)
  unfold zeroTail elfMemory
  dsimp only
  rw [Returns, hmod, wp_ite, wp_bind, wp_assert, wp_modify, wp_pure]
  refine ⟨fun hpage => ⟨fun _ => ⟨rfl, ?_⟩, fun hf => ?_⟩, fun hpage => ⟨rfl, ?_⟩⟩
  · rw [if_pos hpage, hmem]
  · simp [hfile] at hf
  · rw [if_neg hpage, ← hmem]

/-- The swap-in of the page of `pr.addr`, which overlaps the segment, has been started; `r` is the
region found for the address. -/
structure ElfBegun (ph : ProgramHeader) (r : Region) (pr : PagerRequest) (rest : List Request)
    (k : Kernel) : Prop where
  begun : InBegun pr rest (ph.pte pr.addr).addr k
  sf : r.elffile.map SwapfilePtr.elf = some pr.sf
  finish : pr.swapinFinish = .finishSwapelf
  region : ∃ p, k.sosProcs pr.pid = .pcb p ∧ p.regions.find? (findRegion pr.addr) = some r

/-- `finishSwapelf` up to its call of `finishSwapin`. -/
def clearSwapelf : PagerM Unit := do
  match ← requestsPeek with
  | .elfload _ => throw .nullPointer
  | .swapout pr | .swapin pr =>
    let p ← derefProcess pr.pid
    let entry ← lookupEntry pr.pid pr.addr
    match p.regions.find? (findRegion pr.addr) with
    | none => throw .nullPointer
    | some r =>
      zeroTail r pr.addr
      setEntry pr.pid pr.addr { entry with elf := false }

theorem finishSwapelf_eq_bind (c : Calls) :
    finishSwapelf c = clearSwapelf >>= fun _ => finishSwapin c := by
  unfold finishSwapelf clearSwapelf
  rw [bind_assoc]
  congr 1
  funext request
  cases request with
  | elfload er => rfl
  | swapout pr | swapin pr =>
    simp only [bind_assoc]
    congr 1
    funext p
    congr 1
    funext entry
    cases p.regions.find? (findRegion pr.addr) with
    | none => rfl
    | some r => simp only [bind_assoc]

theorem finishSwapelf_eq {k' : Kernel} (h : clearSwapelf k = .ok () k') (c : Calls) :
    finishSwapelf c k = finishSwapin c k' := by
  rw [finishSwapelf_eq_bind]
  exact (returns_of_run h).bind_eq

/-- What it hands over. -/
theorem clearSwapelf_ok (helf : r.IsElf) (hfound : findRegion pr.addr r = true)
    (hbegun : ElfBegun ph r pr rest k₀) {g : Nat → UInt8} (h : InDone pr rest k₀ g k) :
    ∃ k', clearSwapelf k = .ok () k' ∧ k'.pinnedFrame = k₀.pinnedFrame ∧
      k'.memory = elfMemory r pr.addr k₀.memory k₀.pinnedFrame g := by
  obtain ⟨p, hp, hfind⟩ := hbegun.region
  have hprocs : k.sosProcs = k₀.sosProcs := by rw [h.moved]
  have hpin : k.pinnedFrame = k₀.pinnedFrame := by rw [h.moved]
  have hpeek : Returns requestsPeek k (.swapin (pr.reading pageSize .swapinClose)) k := by
    rw [Returns, wp_requestsPeek]
    refine ⟨fun hnil => by simp [h.head] at hnil, fun r' rest' hr => ⟨?_, rfl⟩⟩
    exact (List.cons.inj (hr.symm.trans h.head)).1
  have hderef : Returns (derefProcess pr.pid) k p k := by
    rw [Returns, wp_derefProcess, hprocs, hp]
    simp
  have htable : k.HasTable pr.pid (pageNo pr.addr) := by
    unfold Kernel.HasTable
    rw [hprocs]
    exact hbegun.begun.table
  have hlook : Returns (lookupEntry pr.pid pr.addr) k (k.pool.pte pr.pid (pageNo pr.addr)) k := by
    rw [Returns, wp_lookupEntry_of_hasTable htable]
    exact ⟨rfl, rfl⟩
  have hzero : Returns (zeroTail r pr.addr) k ()
      { k with memory := elfMemory r pr.addr k₀.memory k.pinnedFrame g } :=
    zeroTail_returns helf hfound (hpin ▸ h.memory)
  have hclear : Wp clearSwapelf k (fun _ k' => k'.pinnedFrame = k₀.pinnedFrame ∧
      k'.memory = elfMemory r pr.addr k₀.memory k₀.pinnedFrame g) fun _ _ => False := by
    unfold clearSwapelf
    rw [hpeek.bind_iff]
    dsimp only [PagerRequest.reading]
    rw [hderef.bind_iff, hlook.bind_iff, hfind]
    dsimp only
    rw [hzero.bind_iff]
    refine wp_setEntry fun k' hk' => ?_
    rw [hk', updProcess_rest]
    exact ⟨hpin, by rw [hpin]⟩
  obtain ⟨_, k', hok, hk'⟩ := hclear.returns
  exact ⟨k', hok, hk'⟩

/-! ## The property and its condition -/

/-- The segment's part of the page of `addr` is in the pinned frame, and no other memory has been
written since `k₀`. -/
structure ElfLoaded (ph : ProgramHeader) (addr : Nat) (file : Nat → UInt8) (k₀ k : Kernel) :
    Prop where
  contents : ∀ a, ph.InPage addr a → k.memory (k.pinnedFrame + pageOffset a) =
    if a < ph.vaddr + ph.filesz then file (ph.offset + (a - ph.vaddr)) else 0
  outside : ∀ b, b < k₀.pinnedFrame ∨ k₀.pinnedFrame + pageSize ≤ b → k.memory b = k₀.memory b

/-- Whatever there is in memory and however the reads come, the swap-in ends, and the page is right
when `finishSwapelf` hands it to `finishSwapin`. -/
def ElfPageLoads (ph : ProgramHeader) (r : Region) (addr : Nat) (file : Nat → UInt8) : Prop :=
  ∀ k pr rest d, ElfBegun ph r pr rest k → pr.addr = addr → d.file = file →
    AllUntil transfer (fun s => ¬ s.1.AtSwapinFinish)
      (fun s => s.1.AtSwapinFinish ∧
        ∃ k', clearSwapelf s.1 = .ok () k' ∧ (∀ c, finishSwapelf c s.1 = finishSwapin c k') ∧
          ElfLoaded ph addr file k k') (k, d)

/-- The `memset` ends within the frame, and of the segment's addresses in the page it clears those
behind the end of the file and no others. Where the file has a zero it does not matter. -/
structure ElfPageFits (ph : ProgramHeader) (r : Region) (addr : Nat) (file : Nat → UInt8) :
    Prop where
  frame : r.StaysInFrame addr
  cleared : ∀ a, ph.InPage addr a → (a < ph.vaddr + ph.filesz ↔ ¬ r.Cleared addr a) ∨
    file ((ph.pte addr).addr + pageOffset a) = 0

/-- A byte of the page is right exactly if it is cleared when it is to be. -/
theorem byte_right_iff (hin : ph.InFile) {a : Nat} (ha : ph.InPage addr a) :
    ((if r.Cleared addr a then 0 else file ((ph.pte addr).addr + pageOffset a)) =
      if a < ph.vaddr + ph.filesz then file (ph.offset + (a - ph.vaddr)) else 0) ↔
    (a < ph.vaddr + ph.filesz ↔ ¬ r.Cleared addr a) ∨
      file ((ph.pte addr).addr + pageOffset a) = 0 := by
  by_cases hfile : a < ph.vaddr + ph.filesz
  · rw [if_pos hfile, ← hin.place ha hfile]
    by_cases hc : r.Cleared addr a
    · rw [if_pos hc]
      simp only [hfile, hc, not_true, iff_false, false_or]
      exact eq_comm
    · simp [hfile, hc]
  · rw [if_neg hfile]
    by_cases hc : r.Cleared addr a <;> simp [hfile, hc]

/-- At the end of the swap-in. -/
theorem elfLoaded_of_fits (hin : ph.InFile) (helf : r.IsElf) (hfits : ElfPageFits ph r addr file)
    {k' : Kernel} {pos : Nat} (hpos : pos = (ph.pte addr).addr) (hfile : d.file = file)
    (hpin : k'.pinnedFrame = k₀.pinnedFrame)
    (hmem : k'.memory = elfMemory r addr k₀.memory k₀.pinnedFrame (d.bytes pos)) :
    ElfLoaded ph addr file k₀ k' := by
  refine ⟨fun a ha => ?_, fun b hb => ?_⟩
  · rw [hmem, hpin, elfMemory_inside helf.filesize ha.2.2, Disk.bytes, hfile, hpos,
      byte_right_iff hin ha]
    exact hfits.cleared a ha
  · rw [hmem, elfMemory_outside hfits.frame hb]

theorem elfPageLoads_of_fits (hin : ph.InFile) (helf : r.IsElf) (hfound : findRegion addr r = true)
    (hfits : ElfPageFits ph r addr file) : ElfPageLoads ph r addr file := by
  rintro k pr rest d hbegun rfl hfile
  refine (reads_page hbegun.begun d).mono (fun _ hi => hi.2) fun s hs => ⟨⟨_, _, hs.head, rfl⟩, ?_⟩
  obtain ⟨k', hok, hpin, hmem⟩ := clearSwapelf_ok helf hfound hbegun hs.1
  exact ⟨k', hok, finishSwapelf_eq hok, elfLoaded_of_fits hin helf hfits rfl hfile hpin hmem⟩

/-- If the page is right where memory holds no zero, it fits. -/
theorem fits_of_begun (hin : ph.InFile) (helf : r.IsElf) (hfound : findRegion pr.addr r = true)
    (hbegun : ElfBegun ph r pr rest k₀) (hones : ∀ b, k₀.memory b ≠ 0)
    (h : ElfPageLoads ph r pr.addr file) : ElfPageFits ph r pr.addr file := by
  have hloads := h _ _ _ ⟨file, 0⟩ hbegun rfl rfl
  have hreads := (reads_page hbegun.begun ⟨file, 0⟩).mono (fun _ hi => hi.2) fun _ hs => hs
  -- the two ends of the swap-in are the same: the stage says when it is over
  obtain ⟨s, ⟨-, k', hok, -, hloaded⟩, hdone⟩ := hloads.exists_both hreads
    (fun _ hs hi => hi hs.1) (fun _ hs hi => hi ⟨_, _, hs.head, rfl⟩)
  obtain ⟨k₁, hok₁, hpin, hmem⟩ := clearSwapelf_ok helf hfound hbegun hdone.1
  obtain rfl : k₁ = k' := (EStateM.Result.ok.inj (hok₁.symm.trans hok)).2
  constructor
  · by_contra hover
    have hbehind := hloaded.outside (k₀.pinnedFrame + pageSize) (.inr (le_refl _))
    rw [hmem, elfMemory_behind hover] at hbehind
    exact hones _ hbehind.symm
  · intro a ha
    have hbyte := hloaded.contents a ha
    rw [hmem, hpin, elfMemory_inside helf.filesize ha.2.2] at hbyte
    exact (byte_right_iff hin ha).mp hbyte

/-! ### A kernel with a given region -/

/-- A fault of process 2 on `addr`, a page of the executable `elffile`. -/
def elfRequest (addr elffile : Nat) : PagerRequest :=
  { pid := 2, addr, rights := regionRead, sf := .elf elffile, callback := .pagerContinue, inc := 1
    stage := some .swapinOpen, size := pageSize, swapinFinish := .finishSwapelf }

/-- A process with one region, whose pages are all at `pos` in the file. -/
def elfProcess (r : Region) (pos : Nat) : Process where
  state := .alive
  pagetable :=
    { frame := 0x2000
      pages2 := fun _ => some ⟨0x4000, fun _ => { addr := pos, swap := true, elf := true }⟩ }
  regions := [r]
  inc := 1

/-- The open has been sent, and no byte of memory is zero. -/
def elfKernel (r : Region) (pos addr elffile : Nat) : Kernel :=
  { coldStart 4 with
    elffiles := fun _ => some ⟨[], vfsNilFile, 0, 0, fun _ => 0⟩
    requests := [.swapin (elfRequest addr elffile)]
    pinnedFrame := 0x3000
    memory := fun _ => 1
    calls := [.open [] fmRead 0 0] }.setSlot 2 (.pcb (elfProcess r pos))

theorem elfKernel_begun (hfound : findRegion addr r = true) {elffile : Nat}
    (helffile : r.elffile = some elffile) :
    ElfBegun ph r (elfRequest addr elffile) [] (elfKernel r (ph.pte addr).addr addr elffile) := by
  have hp : (elfKernel r (ph.pte addr).addr addr elffile).sosProcs 2 =
      .pcb (elfProcess r (ph.pte addr).addr) := setSlot_self
  refine ⟨⟨rfl, rfl, rfl, rfl, ⟨_, _, hp, rfl⟩, ?_, ⟨[], fmRead, 0, 0, rfl⟩⟩, ?_, rfl, _, hp, ?_⟩
  · show (((elfKernel r _ addr elffile).sosProcs 2).pte (pageNo addr)).addr = _
    rw [hp]
    rfl
  · rw [helffile]
    rfl
  · show [r].find? (findRegion addr) = some r
    rw [List.find?_cons_of_pos hfound]

theorem fits_of_elfPageLoads (hin : ph.InFile) (helf : r.IsElf) (hfound : findRegion addr r = true)
    (h : ElfPageLoads ph r addr file) : ElfPageFits ph r addr file := by
  obtain ⟨elffile, helffile⟩ := Option.isSome_iff_exists.mp helf.elffile
  refine fits_of_begun hin helf hfound (elfKernel_begun hfound helffile) (fun b => ?_) h
  show (1 : UInt8) ≠ 0
  decide

/-- **A page of an executable loads right exactly if it fits.** A `memset` for a region that goes on
after the page its file part ends in clears the frames behind, and the pages after that one keep
what the file has there. -/
theorem elf_page_loads_iff (hin : ph.InFile) (helf : r.IsElf) (hfound : findRegion addr r = true) :
    ElfPageLoads ph r addr file ↔ ElfPageFits ph r addr file :=
  ⟨fits_of_elfPageLoads hin helf hfound, elfPageLoads_of_fits hin helf hfound⟩

/-- A segment that ends in the page its file part ends in fits in every page. -/
theorem elfPageFits_of_top {elffile : Nat} (hin : ph.InFile)
    (htop : ph.vaddr + ph.memsz ≤ pageAlign (ph.vaddr + ph.filesz) + pageSize) :
    ElfPageFits ph (ph.region elffile) addr file := by
  have hfilesz := hin.filesz
  constructor
  · intro _
    show pageOffset (ph.vaddr + ph.filesz) + (ph.memsz - ph.filesz) ≤ pageSize
    unfold pageAlign pageOffset pageSize at *
    omega
  · rintro a ⟨-, hlt, hpage⟩
    left
    show a < ph.vaddr + ph.filesz ↔ ¬ (pageAlign (ph.vaddr + ph.filesz) = pageAlign addr ∧
      ph.vaddr + ph.filesz ≤ a ∧ a < ph.vaddr + ph.memsz)
    unfold pageAlign pageSize at *
    omega

/-- All pages of a segment's own region come out right, whatever the file holds, exactly if the
segment ends in the page its file part ends in. -/
theorem segment_loads_iff {elffile : Nat} (hin : ph.InFile)
    (htop : ph.vaddr + ph.memsz < wordLimit) :
    (∀ addr file, findRegion addr (ph.region elffile) = true →
      ElfPageLoads ph (ph.region elffile) addr file) ↔
    ph.vaddr + ph.memsz ≤ pageAlign (ph.vaddr + ph.filesz) + pageSize := by
  have hfilesz := hin.filesz
  have helf : (ph.region elffile).IsElf :=
    ⟨⟨by show ph.vaddr < _; omega, by show ph.memsz < _; omega⟩, hfilesz, rfl⟩
  refine ⟨fun hloads => ?_, fun hend addr file hfound =>
    elfPageLoads_of_fits hin helf hfound (elfPageFits_of_top hin hend)⟩
  -- The page that counts is the one with the first byte behind the file part.
  by_contra hend
  have hfound : findRegion (ph.vaddr + ph.filesz) (ph.region elffile) = true := by
    refine decide_eq_true ⟨Nat.le_add_right .., ?_⟩
    show ph.vaddr + ph.filesz < (ph.vaddr + ph.memsz) % wordLimit
    rw [Nat.mod_eq_of_lt htop]
    unfold pageAlign pageSize at hend
    omega
  have hframe : pageOffset (ph.vaddr + ph.filesz) + (ph.memsz - ph.filesz) ≤ pageSize :=
    (fits_of_elfPageLoads hin helf hfound (hloads _ (fun _ => 0) hfound)).frame rfl
  unfold pageAlign pageOffset pageSize at *
  omega

/-- A segment with 1 KiB to clear behind its file part. -/
def dataSegment : ProgramHeader :=
  { offset := 0x1000, vaddr := 0x10000, filesz := 0x1800, memsz := 0x1c00, flags := 6 }

/-- A segment with 2 KiB in the file and three pages of memory. -/
def bssSegment : ProgramHeader :=
  { offset := 0x1000, vaddr := 0x10000, filesz := 0x800, memsz := 0x3000, flags := 6 }

theorem elf_page_loads_iff_data :
    dataSegment.InFile ∧ (dataSegment.region 0xa000).IsElf ∧
      findRegion 0x11400 (dataSegment.region 0xa000) = true ∧
      ElfPageLoads dataSegment (dataSegment.region 0xa000) 0x11400 UInt8.ofNat := by
  have hin : dataSegment.InFile := ⟨⟨by decide, by decide, by decide⟩, by decide, by decide⟩
  have helf : (dataSegment.region 0xa000).IsElf := ⟨by decide, by decide, rfl⟩
  exact ⟨hin, helf, by decide, (elf_page_loads_iff hin helf (by decide)).mpr
    (elfPageFits_of_top hin (by decide))⟩

/-- The `memset` for the first page clears two frames behind the pinned one, and the second page is
not cleared at all. -/
theorem bss_segment_loads_wrong :
    bssSegment.InFile ∧ (bssSegment.region 0xa000).IsElf ∧
      (∀ file, ¬ ElfPageLoads bssSegment (bssSegment.region 0xa000) 0x10000 file) ∧
      ¬ ElfPageLoads bssSegment (bssSegment.region 0xa000) 0x11000 fun _ => 1 := by
  have hin : bssSegment.InFile := ⟨⟨by decide, by decide, by decide⟩, by decide, by decide⟩
  have helf : (bssSegment.region 0xa000).IsElf := ⟨by decide, by decide, rfl⟩
  refine ⟨hin, helf, fun file h => ?_, fun h => ?_⟩
  · exact absurd ((fits_of_elfPageLoads hin helf (by decide) h).frame rfl) (by decide)
  · rcases (fits_of_elfPageLoads hin helf (by decide) h).cleared 0x11000
      (by unfold ProgramHeader.InPage; decide) with hiff | hzero
    · exact absurd hiff (by decide)
    · exact absurd hzero (by decide)

end Sos
