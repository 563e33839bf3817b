import Sos.Properties.ElfRegions

/-!
# What the loader knows of a file

`continueElfload` reads a file once, `IO_MAX_BUFFER` bytes at most, into the pager's copy buffer,
and interprets what stands there as the ELF header and the program headers. How many bytes were read
it does not look at: behind them it finds what the buffer held before.
-/

namespace Sos

open Hoare

variable {k : Kernel} {mem mem' : Nat → UInt8} {header : Nat} {data : List UInt8}
variable {stale : Nat → UInt8} {i : Nat} {path : Path}

/-! ## The program in a buffer -/

/-- The region of a segment, the file apart. -/
def ProgramHeader.plainRegion (ph : ProgramHeader) : Region :=
  { type := .other, base := ph.vaddr, size := ph.memsz, rights := ph.flags, filesize := ph.filesz }

/-- The entries with those of a segment. -/
def ProgramHeader.enter (ph : ProgramHeader) (entries : Page → Pte) : Page → Pte :=
  (List.range' 0 (elfRounds ph.memsz)).foldl
    (fun f j => Function.update f (pageNo (ph.vaddr + j * pageSize))
      (elfPte (pageAlign ph.offset) j))
    entries

/-- What a new process is made from. -/
@[ext]
structure Program where
  regions : List Region
  entries : Page → Pte
  entry : Nat

/-- The program that is found in the buffer at `header`; `none` if it is rejected. -/
def elfProgram (mem : Nat → UInt8) (header : Nat) : Option Program :=
  if elf32CheckFile mem header then
    some
      { regions := (elf32ProgramHeaders mem header).map ProgramHeader.plainRegion
        entries := (elf32ProgramHeaders mem header).foldl (fun f ph => ph.enter f) fun _ => {}
        entry := elf32EntryPoint mem header }
  else none

/-! ## The process is made from the program -/

theorem setRegionOnElfLoop_entries {r : Region} (addr : Nat)
    (hsize : r.size ≤ wordLimit - pageSize) :
    ∀ (m i n : Nat) (pt : Pagetable) (k : Kernel), i + m = elfRounds r.size →
      Wp (setRegionOnElfLoop r addr n (i * pageSize) pt) k
        (fun pt' _ => pt'.entry = (List.range' i m).foldl
          (fun f j => Function.update f (pageNo (r.base + j * pageSize)) (elfPte addr j)) pt.entry)
        fun _ _ => True
  | _, _, 0, _, _, _ => wp_throw.mpr trivial
  | 0, i, n + 1, pt, k, hi => by
    have hend : ¬ i * pageSize < r.size := by
      rw [← lt_elfRounds_iff]
      omega
    rw [setRegionOnElfLoop, if_neg hend]
    exact wp_pure.mpr rfl
  | m + 1, i, n + 1, pt, k, hi => by
    have hgo : i * pageSize < r.size := lt_elfRounds_iff.mp (by omega)
    have hrest := fun pt' k' => setRegionOnElfLoop_entries addr hsize m (i + 1) n pt' k' (by omega)
    rw [setRegionOnElfLoop, if_pos hgo, wp_bind, elfRounds_next hsize (by omega),
      wp_pagetableLookup, List.range'_succ, List.foldl_cons]
    refine ⟨fun t ht => ?_, fun hnone => ⟨fun _ => trivial, fun f rest hfree hf => ?_⟩⟩
    · rw [← Pagetable.entry_setEntry ht]
      exact hrest _ _
    · rw [← entry_setEntry_addTable hnone]
      exact hrest _ _

/-- The process has the regions and entries of the segments read so far. -/
structure Process.Has (p : Process) (regions : List Region) (entries : Page → Pte) : Prop where
  regions : p.regions.map ({ · with elffile := none }) = regions
  entries : p.pagetable.entry = entries

theorem addSegment_has {p : Process} {regions : List Region} {entries : Page → Pte}
    (ph : ProgramHeader) (h : p.Has regions entries) :
    Wp (addSegment path p ph) k
      (fun p' _ => p'.Has (regions ++ [ph.plainRegion]) (ph.enter entries)) fun _ _ => True := by
  unfold addSegment
  rw [wp_bind]
  refine Wp.trivial.imp fun f k₁ _ => ?_
  dsimp only
  unfold setRegionOnElf
  rw [wp_bind, wp_bind, wp_assert]
  refine ⟨fun _ => ?_, fun _ => trivial⟩
  by_cases hsize : ph.memsz ≤ wordLimit - pageSize
  · refine (setRegionOnElfLoop_entries (pageAlign ph.offset) hsize (elfRounds ph.memsz) 0 _ _ k₁
      (Nat.zero_add _)).imp fun pt _ hpt => wp_pure.mpr ⟨?_, ?_⟩
    · rw [List.map_append, h.regions]
      rfl
    · rw [← h.entries]
      exact hpt
  · exact (setRegionOnElfLoop_endless _ (Nat.lt_of_not_le hsize) _ 0 _ k₁ rfl (by decide)).imp
      fun _ _ hfalse => hfalse.elim

/-- The process that is built from the program headers has what the program says. -/
theorem addSegments_has : ∀ (phs : List ProgramHeader) {p : Process} {k : Kernel}
    {regions : List Region} {entries : Page → Pte}, p.Has regions entries →
    Wp (phs.foldlM (addSegment path) p) k
      (fun p' _ => p'.Has (regions ++ phs.map ProgramHeader.plainRegion)
        (phs.foldl (fun f ph => ph.enter f) entries)) fun _ _ => True
  | [], p, k, regions, entries, h => by
    rw [List.foldlM_nil, List.map_nil, List.append_nil]
    exact wp_pure.mpr h
  | ph :: phs, p, k, regions, entries, h => by
    rw [List.foldlM_cons, wp_bind, List.map_cons, List.foldl_cons, List.append_cons]
    exact (addSegment_has ph h).imp fun _ _ h' => addSegments_has phs h'

theorem elfProgram_built {program : Program} (h : elfProgram mem header = some program) :
    Wp (do
      let p ← processInit .process
      (elf32ProgramHeaders mem header).foldlM (addSegment path) p) k
      (fun p _ => p.Has program.regions program.entries) fun _ _ => True := by
  unfold elfProgram at h
  split at h
  · obtain rfl := Option.some.inj h
    rw [wp_bind]
    refine wp_processInit (fun _ => trivial) fun f _ _ _ k₁ _ => ?_
    have hnew : Process.Has
        { psType := .process, pagetable := { frame := f, pages2 := fun _ => none }, inc := k.incs }
        [] fun _ => {} := ⟨rfl, rfl⟩
    exact addSegments_has _ hnew
  · simp at h

/-! ## What was read -/

/-- The buffer at `header` after `data` has been read into it. -/
def readBuffer (header : Nat) (data : List UInt8) (stale : Nat → UInt8) : Nat → UInt8 :=
  blit stale header data.length fun i => data.getD i 0

/-- The loader makes the same of the bytes read, whatever the buffer held before. -/
def LoadsOnlyRead (header : Nat) (data : List UInt8) : Prop :=
  ∀ stale stale', elfProgram (readBuffer header data stale) header =
    elfProgram (readBuffer header data stale') header

/-- The magic number and the class. -/
def elfMagic : List UInt8 := [127, 69, 76, 70, 1]

/-- The bytes read show that this is no ELF file. -/
def NotElf (data : List UInt8) : Prop :=
  ∃ i < 5, i < data.length ∧ data.getD i 0 ≠ elfMagic.getD i 0

/-- The header up to the number of program headers is in the bytes read, and so are all the program
headers, each from its byte `o` to its flags. -/
def HeadersRead (o : Nat) (data : List UInt8) : Prop :=
  46 ≤ data.length ∧ ∀ i < readHalf (data.getD · 0) 44,
    (readWord (data.getD · 0) 28 + 32 * i + o) % wordLimit + (28 - o) ≤ data.length

theorem readBuffer_read (h : i < data.length) :
    readBuffer header data stale (header + i) = data.getD i 0 := blit_apply h

theorem readBuffer_stale {a : Nat} (h : ¬ (header ≤ a ∧ a < header + data.length)) :
    readBuffer header data stale a = stale a :=
  if_neg h

theorem elf32CheckFile_iff :
    elf32CheckFile mem header = true ↔ ∀ i < 5, mem (header + i) = elfMagic.getD i 0 := by
  unfold elf32CheckFile
  simp only [Bool.and_eq_true, beq_iff_eq]
  constructor
  · rintro ⟨⟨⟨⟨h0, h1⟩, h2⟩, h3⟩, h4⟩ i hi
    match i, hi with
    | 0, _ => exact h0
    | 1, _ => exact h1
    | 2, _ => exact h2
    | 3, _ => exact h3
    | 4, _ => exact h4
  · intro h
    exact ⟨⟨⟨⟨h 0 (by decide), h 1 (by decide)⟩, h 2 (by decide)⟩, h 3 (by decide)⟩,
      h 4 (by decide)⟩

theorem readHalf_readBuffer (h : i + 2 ≤ data.length) :
    readHalf (readBuffer header data stale) (header + i) = readHalf (data.getD · 0) i :=
  readHalf_eq fun j hj => by rw [Nat.add_assoc, readBuffer_read (by omega)]

theorem readWord_readBuffer (h : i + 4 ≤ data.length) :
    readWord (readBuffer header data stale) (header + i) = readWord (data.getD · 0) i :=
  readWord_eq fun j hj => by rw [Nat.add_assoc, readBuffer_read (by omega)]

/-- Two buffers that agree on the header and the program headers hold the same program. -/
theorem elfProgram_congr {n : Nat} (hagree : ∀ i < n, mem (header + i) = mem' (header + i))
    (hn : 46 ≤ n) (hfit : header + n ≤ wordLimit) (hphs : ∀ i < readHalf mem (header + 44),
      (readWord mem (header + 28) + 32 * i + 4) % wordLimit + 24 ≤ n) :
    elfProgram mem header = elfProgram mem' header := by
  have hat : ∀ o j, o + j < n → mem (header + o + j) = mem' (header + o + j) := by
    intro o j hj
    rw [Nat.add_assoc, hagree _ hj]
  have hword : ∀ o, o + 4 ≤ n → readWord mem (header + o) = readWord mem' (header + o) :=
    fun o ho => readWord_eq fun j hj => hat o j (by omega)
  have hcheck : elf32CheckFile mem header = elf32CheckFile mem' header := by
    rw [Bool.eq_iff_iff, elf32CheckFile_iff, elf32CheckFile_iff]
    exact forall₂_congr fun i hi => by rw [hagree i (by omega)]
  have hheaders : elf32ProgramHeaders mem header = elf32ProgramHeaders mem' header := by
    unfold elf32ProgramHeaders
    rw [← readHalf_eq fun j hj => hat 44 j (by omega)]
    refine List.map_congr_left fun i hi => ?_
    have hi := hphs i (List.mem_range.mp hi)
    -- byte `o` of the program header is a byte behind the header, the sum may have wrapped
    have hfield : ∀ o, 4 ≤ o → o + 4 ≤ 28 → readWord (elf32PhdrBytes mem header i) o =
        readWord (elf32PhdrBytes mem' header i) o := by
      intro o ho ho'
      refine readWord_eq fun j hj => ?_
      unfold elf32PhdrBytes
      rw [← hword 28 (by omega), show (header + readWord mem (header + 28) + 32 * i + (o + j)) %
        wordLimit = header + ((readWord mem (header + 28) + 32 * i + 4) % wordLimit +
          (o + j - 4)) by
          unfold wordLimit at *; omega]
      exact hagree _ (by omega)
    unfold elf32ProgramHeader
    rw [hfield 4 (by omega) (by omega), hfield 8 (by omega) (by omega),
      hfield 16 (by omega) (by omega), hfield 20 (by omega) (by omega),
      hfield 24 (by omega) (by omega)]
  unfold elfProgram elf32EntryPoint
  rw [hcheck, hheaders, hword 24 (by omega)]

theorem loadsOnlyRead_of_read (hfit : header + data.length ≤ wordLimit)
    (h : NotElf data ∨ HeadersRead 4 data) : LoadsOnlyRead header data := by
  intro stale stale'
  rcases h with ⟨i, hi, hlen, hne⟩ | ⟨hn, hphs⟩
  · have hreject : ∀ s, elfProgram (readBuffer header data s) header = none := by
      intro s
      refine if_neg fun hcheck => hne ?_
      rw [← readBuffer_read hlen]
      exact elf32CheckFile_iff.mp hcheck i hi
    rw [hreject, hreject]
  · refine elfProgram_congr (fun i hi => ?_) hn hfit ?_
    · rw [readBuffer_read hi, readBuffer_read hi]
    · rw [readHalf_readBuffer (by omega), readWord_readBuffer (by omega)]
      exact hphs

/-! ## What was not read -/

theorem elfProgram_of_check (h : elf32CheckFile mem header = true) :
    ∃ program, elfProgram mem header = some program ∧
      program.regions = (elf32ProgramHeaders mem header).map ProgramHeader.plainRegion := by
  unfold elfProgram
  rw [if_pos h]
  exact ⟨_, rfl, rfl⟩

/-- Loads that make the same of a buffer have the same regions. -/
theorem LoadsOnlyRead.regions_eq (h : LoadsOnlyRead header data) {stale stale' : Nat → UInt8}
    (hc : elf32CheckFile (readBuffer header data stale) header = true)
    (hc' : elf32CheckFile (readBuffer header data stale') header = true) :
    (elf32ProgramHeaders (readBuffer header data stale) header).map ProgramHeader.plainRegion =
      (elf32ProgramHeaders (readBuffer header data stale') header).map
        ProgramHeader.plainRegion := by
  obtain ⟨program, hp, hr⟩ := elfProgram_of_check hc
  obtain ⟨program', hp', hr'⟩ := elfProgram_of_check hc'
  have heq : some program = some program' := by rw [← hp, ← hp']; exact h stale stale'
  rw [← hr, ← hr', Option.some.inj heq]

/-- A file that is too short to show whether it is an ELF file is taken for one or not. -/
theorem five_le_of_loadsOnlyRead (h : LoadsOnlyRead header data) (helf : ¬ NotElf data) :
    5 ≤ data.length := by
  by_contra hshort
  have hread : ∀ i < data.length, data.getD i 0 = elfMagic.getD i 0 := by
    intro i hi
    by_contra hne
    exact helf ⟨i, by omega, hi, hne⟩
  have hyes : elf32CheckFile (readBuffer header data fun a => elfMagic.getD (a - header) 0) header =
      true := by
    refine elf32CheckFile_iff.mpr fun i _ => ?_
    rcases Nat.lt_or_ge i data.length with hi | hi
    · rw [readBuffer_read hi, hread i hi]
    · rw [readBuffer_stale (by omega), Nat.add_sub_cancel_left]
  have hno : ¬ elf32CheckFile (readBuffer header data fun _ => 0) header = true := by
    intro hcheck
    have h4 := elf32CheckFile_iff.mp hcheck 4 (by decide)
    rw [readBuffer_stale (by omega)] at h4
    exact absurd h4 (by decide)
  obtain ⟨program, hp, -⟩ := elfProgram_of_check hyes
  have heq := h (fun a => elfMagic.getD (a - header) 0) fun _ => 0
  rw [hp, elfProgram, if_neg hno] at heq
  exact absurd heq (by simp)

/-- Zeros with a 1 at one place. -/
def oneAt (a : Nat) : Nat → UInt8 := fun b => if b = a then 1 else 0

theorem check_readBuffer (helf : ¬ NotElf data) (h5 : 5 ≤ data.length) (stale : Nat → UInt8) :
    elf32CheckFile (readBuffer header data stale) header = true := by
  refine elf32CheckFile_iff.mpr fun i hi => ?_
  rw [readBuffer_read (by omega)]
  by_contra hne
  exact helf ⟨i, hi, by omega, hne⟩

theorem readHalf_mod (mem : Nat → UInt8) (a : Nat) :
    readHalf mem a % 256 = (mem (a + 1)).toNat := by
  have hlt := (mem (a + 1)).toNat_lt
  unfold readHalf
  omega

theorem readWord_mod (mem : Nat → UInt8) (a : Nat) :
    readWord mem a % 256 = (mem (a + 3)).toNat := by
  have hmod : readHalf mem (a + 2) % 256 = (mem (a + 3)).toNat := readHalf_mod mem (a + 2)
  unfold readWord
  omega

theorem readWord_div (mem : Nat → UInt8) (a : Nat) :
    readWord mem a / 16777216 = (mem a).toNat := by
  have h1 := (mem (a + 1)).toNat_lt
  have h2 := (mem (a + 2)).toNat_lt
  have h3 := (mem (a + 2 + 1)).toNat_lt
  unfold readWord readHalf
  omega

/-- A byte that was not read may be zero or one. -/
theorem stale_toNat_ne (header : Nat) (data : List UInt8) {a : Nat}
    (h : ¬ (header ≤ a ∧ a < header + data.length)) :
    (readBuffer header data (fun _ => 0) a).toNat ≠ (readBuffer header data (oneAt a) a).toNat := by
  rw [readBuffer_stale h, readBuffer_stale h, oneAt, if_pos rfl]
  decide

theorem headersRead_of_loadsOnlyRead (hlen : data.length ≤ ioMaxBuffer)
    (h : LoadsOnlyRead header data) (helf : ¬ NotElf data) : HeadersRead 8 data := by
  have h5 := five_le_of_loadsOnlyRead h helf
  have hregions : ∀ a, (elf32ProgramHeaders (readBuffer header data fun _ => 0) header).map
        ProgramHeader.plainRegion =
      (elf32ProgramHeaders (readBuffer header data (oneAt a)) header).map
        ProgramHeader.plainRegion := fun a =>
    h.regions_eq (check_readBuffer helf h5 _) (check_readBuffer helf h5 _)
  have hn : 46 ≤ data.length := by
    by_contra hshort
    have hcount := congrArg List.length (hregions (header + 44 + 1))
    simp only [elf32ProgramHeaders, List.length_map, List.length_range] at hcount
    refine stale_toNat_ne header data (a := header + 44 + 1) (by omega) ?_
    rw [← readHalf_mod, ← readHalf_mod, hcount]
  refine ⟨hn, fun i hi => ?_⟩
  by_contra hout
  have hregion := fun a => congrArg (·[i]?) (hregions a)
  simp only [elf32ProgramHeaders, readHalf_readBuffer hn, List.map_map, List.getElem?_map,
    List.getElem?_range hi, Option.map_some, Option.some.injEq, Function.comp_apply] at hregion
  -- what byte `o` of the program header is, whatever the buffer held
  have hbyte : ∀ stale o, elf32PhdrBytes (readBuffer header data stale) header i o =
      readBuffer header data stale
        ((header + readWord (data.getD · 0) 28 + 32 * i + o) % wordLimit) := by
    intro stale o
    unfold elf32PhdrBytes
    rw [readWord_readBuffer (by omega)]
  unfold ioMaxBuffer at hlen
  by_cases hwrap : (readWord (data.getD · 0) 28 + 32 * i + 8) % wordLimit + 20 ≤ wordLimit
  · -- the last byte of the flags is not read
    refine stale_toNat_ne header data
      (a := (header + readWord (data.getD · 0) 28 + 32 * i + (24 + 3)) % wordLimit)
      (by unfold wordLimit at *; omega) ?_
    rw [← hbyte, ← hbyte, ← readWord_mod, ← readWord_mod]
    exact congrArg (·.rights % 256) (hregion _)
  · -- the address begins in front of the header
    refine stale_toNat_ne header data
      (a := (header + readWord (data.getD · 0) 28 + 32 * i + 8) % wordLimit)
      (by unfold wordLimit at *; omega) ?_
    rw [← hbyte, ← hbyte, ← readWord_div, ← readWord_div]
    exact congrArg (·.base / 16777216) (hregion _)

/-- **The loader uses what was not read** unless the bytes read show that the file is no ELF file,
or hold the header and all the program headers. The place of a segment in the file, byte 4 to 8 of
its header, counts only if the segment has a page that no later one has. -/
theorem loads_only_read (hlen : data.length ≤ ioMaxBuffer)
    (hfit : header + ioMaxBuffer ≤ wordLimit) :
    (NotElf data ∨ HeadersRead 4 data → LoadsOnlyRead header data) ∧
      (LoadsOnlyRead header data → NotElf data ∨ HeadersRead 8 data) := by
  refine ⟨loadsOnlyRead_of_read (by omega), fun h => ?_⟩
  by_cases helf : NotElf data
  · exact .inl helf
  · exact .inr (headersRead_of_loadsOnlyRead hlen h helf)

/-- A header that says that one program header follows, and nothing behind it. -/
def bareHeader : List UInt8 :=
  [127, 69, 76, 70, 1, 2, 1, 0, 0, 0, 0, 0, 0, 0, 0, 0,
    0, 2, 0, 40, 0, 0, 0, 1, 0, 16, 0, 0, 0, 0, 0, 52,
    0, 0, 0, 0, 0, 0, 0, 0, 0, 52, 0, 32, 0, 1, 0, 0, 0, 0, 0, 0]

/-- What follows is what another file has left in the buffer. -/
theorem bareHeader_loads_stale :
    bareHeader.length ≤ ioMaxBuffer ∧ ∃ stale stale' program program',
      elfProgram (readBuffer 0 bareHeader stale) 0 = some program ∧
      elfProgram (readBuffer 0 bareHeader stale') 0 = some program' ∧
      program.regions ≠ program'.regions := by
  refine ⟨by decide, fun _ => 0, oneAt 79, _, _, if_pos (by decide), if_pos (by decide), ?_⟩
  decide +kernel

/-- The same header with the program header four bytes in front of it, so that all the loader looks
at is in the header. -/
def wrappedHeader : List UInt8 := bareHeader.take 28 ++ [255, 255, 255, 252] ++ bareHeader.drop 32

theorem loads_only_read_wrappedHeader :
    LoadsOnlyRead 0 wrappedHeader ∧ ¬ LoadsOnlyRead 0 bareHeader := by
  refine ⟨(loads_only_read (by decide) (by decide)).1 (.inr ?_), fun h => ?_⟩
  · unfold HeadersRead
    decide +kernel
  · have hread := (loads_only_read (by decide) (by decide)).2 h
    unfold NotElf HeadersRead at hread
    revert hread
    decide +kernel

end Sos
