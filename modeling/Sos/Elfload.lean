import Sos.Pager

/-!
# Loading a program

`process_create` as the pager sees it: the request is queued, and the file is opened, tested for
the execute permission, its header read and the process built from the program headers, all by a
chain of file system calls. The contents of the file stay on disk: the page table entries are set
up to swap the pages in from the file.

A header is read from the copy buffer of the pager thread.
-/

namespace Sos

open Hoare

/-! ## Reading an ELF header -/

/-- `elf32_checkFile(header) == 0`: magic number and class. -/
def elf32CheckFile (mem : Nat → UInt8) (header : Nat) : Bool :=
  mem header == 127 && mem (header + 1) == 69 && mem (header + 2) == 76 && mem (header + 3) == 70 &&
    mem (header + 4) == 1

/-- The fields of an `Elf32_Phdr` the loader looks at. -/
structure ProgramHeader where
  offset : Nat
  vaddr : Nat
  filesz : Nat
  memsz : Nat
  flags : Nat
deriving DecidableEq, Repr

/-- The bytes of `elf32_getProgramHeaderTable(header)[i]`. Addresses wrap, so the table may begin in
front of the header. -/
def elf32PhdrBytes (mem : Nat → UInt8) (header i o : Nat) : UInt8 :=
  mem ((header + readWord mem (header + 28) + 32 * i + o) % wordLimit)

/-- `elf32_getProgramHeaderTable(header)[i]`. -/
def elf32ProgramHeader (mem : Nat → UInt8) (header i : Nat) : ProgramHeader :=
  { offset := readWord (elf32PhdrBytes mem header i) 4
    vaddr := readWord (elf32PhdrBytes mem header i) 8
    filesz := readWord (elf32PhdrBytes mem header i) 16
    memsz := readWord (elf32PhdrBytes mem header i) 20
    flags := readWord (elf32PhdrBytes mem header i) 24 }

/-- All program headers, as many as the header says there are. -/
def elf32ProgramHeaders (mem : Nat → UInt8) (header : Nat) : List ProgramHeader :=
  (List.range (readHalf mem (header + 44))).map (elf32ProgramHeader mem header)

/-- `elf32_getEntryPoint(header)`: where the process begins to run. -/
def elf32EntryPoint (mem : Nat → UInt8) (header : Nat) : Nat := readWord mem (header + 24)

/-! ## Building the process -/

/-- The loop of `setRegionOnElf`. The counter is an `int` that is compared with an unsigned size, so
it goes round at 2^32. -/
def setRegionOnElfLoop (r : Region) (addr : Nat) : Nat → Nat → Pagetable → PagerM Pagetable
  | 0, _, _ => throw .outOfFuel
  | n + 1, size, pt => do
    if size < r.size then
      let pt ← pagetableLookup pt (r.base + size)
      setRegionOnElfLoop r addr n ((size + pageSize) % wordLimit)
        (pt.setEntry (pageNo (r.base + size))
          { addr := (addr + size) % wordLimit, swap := true, elf := true })
    else return pt

/-- `setRegionOnElf`: the pages of a region are on the ELF file from `addr` on. A loop that has not
ended when the counter comes round does not end. -/
def setRegionOnElf (pt : Pagetable) (r : Region) (addr : Nat) : PagerM Pagetable := do
  assert (pageOffset addr = 0) .setRegionOnElfAligned
  setRegionOnElfLoop r addr (wordLimit / pageSize + 1) 0 pt

/-- The body of the loop over the program headers. -/
def addSegment (path : Path) (p : Process) (ph : ProgramHeader) : PagerM Process := do
  let f ← swapfileInit path
  let r : Region :=
    { type := .other, base := ph.vaddr, size := ph.memsz, rights := ph.flags
      filesize := ph.filesz, elffile := some f }
  let pt ← setRegionOnElf p.pagetable r (pageAlign ph.offset)
  return { p with regions := p.regions ++ [r], pagetable := pt }

/-- The success branch of `ELFLOAD_READ_HEADER`, up to the running process. -/
def loadProcess (er : ElfloadRequest) (phs : List ProgramHeader) : PagerM Unit := do
  let p ← processInit .process
  let p ← phs.foldlM (addSegment er.path) p
  processPrepare2 er.child p er.fdout er.fderr er.fdin
  processRun er.child

/-! ## The stages of a load -/

/-- `finishElfload`. -/
def finishElfload (c : Calls) (rval : Int) : PagerM Unit := do
  match ← requestsPeek with
  | .elfload er =>
    syscallReply (← processGetTid er.parent) rval
    dequeueRequest c
  | _ => throw (.assertion .finishElfloadType)

/-- `strlen`, within `n` bytes. -/
def strlen (mem : Nat → UInt8) : Nat → Nat → Nat
  | 0, _ => 0
  | n + 1, a => if mem a = 0 then 0 else strlen mem n (a + 1) + 1

/-- `wordAlign`. -/
def wordAlign (a : Nat) : Nat := (a + 3) / 4 * 4

/-- `st_fmode` of the `stat_t` that stands behind the path in the pager's copy buffer. -/
def Kernel.statFmode (k : Kernel) : Nat :=
  let buf := pagerBuffer k.virtualPager
  (k.copyInOutBuffer (wordAlign (buf + strlen k.copyInOutBuffer copyBufsiz buf + 1) + 4)).toNat

/-- `continueElfload`, the request being at the head of the queue. A failed load ends at once; in
the source the stage of the freed request is then still advanced. -/
def continueElfload (c : Calls) (er : ElfloadRequest) (vfsRval : Int) : PagerM Unit := do
  match er.stage with
  | .open =>
    if vfsRval < 0 then
      finishElfload c (-1)
    else
      let k ← get
      set { k with copyInOutData := Function.update k.copyInOutData k.virtualPager 0 }
      strncpyToBuffer k.virtualPager er.path
      vfsCall .stat
      setHead (.elfload { er with fd := vfsRval, stage := .checkExec })
  | .checkExec =>
    assert (vfsRval == 0) .continueElfloadStat
    if (← get).statFmode &&& fmExec = 0 then
      finishElfload c (-1)
    else
      vfsCall (.read er.fd ioMaxBuffer)
      setHead (.elfload { er with stage := .readHeader })
  | .readHeader =>
    let k ← get
    let header := pagerBuffer k.virtualPager
    if elf32CheckFile k.copyInOutBuffer header = false then
      finishElfload c (-1)
    else
      loadProcess er (elf32ProgramHeaders k.copyInOutBuffer header)
      vfsCall (.close er.fd)
      setHead (.elfload { er with stage := .close })
  | .close => finishElfload c er.child.val

/-! ## Asking for a load -/

/-- `setFdStrn`: the path behind a descriptor of the parent. -/
def setFdStrn (k : Kernel) (p : Process) (fd : Int) : Option Path :=
  if h : 0 ≤ fd ∧ fd < 19 then
    let file := p.fds ⟨fd.toNat, toNat_lt_fds h⟩
    if h : 0 ≤ file ∧ file < 16 then
      (p.files ⟨file.toNat, by omega⟩).vnode.map k.vnodePath
    else none
  else none

/-- `SOS_PROCESS_CREATE`: the path is in the copy buffer of the caller. -/
def processCreate (c : Calls) (parent : Pid) (fdout fderr fdin : Int) : PagerM Unit := do
  match ← reservePid with
  | none => syscallReply parent (-1)
  | some child =>
    let p ← derefProcess parent
    let k ← get
    queueRequest c (.elfload
      { path := k.bufferPath (pagerBuffer parent), parent, child
        fdout := setFdStrn k p fdout, fderr := setFdStrn k p fderr, fdin := setFdStrn k p fdin })

end Sos
