import Sos.Constants

/-!
# The state of the pager

The data the pager works on: page tables and regions, PCBs, swap files, queued requests, and
`Kernel`, which holds the global variables of `pager.c`, `process.c` and `frames.c` together with
the L4 mappings, the physical memory, the copy buffers, and a record of the messages sent.

Pointers that may dangle or be NULL in C are explicit here: a PCB slot is `null`, `placeholder`
(`PS_PLACEHOLDER`, the pid is reserved for a process still being loaded) or a PCB, and an ELF swap
file is found through the address of its frame.
-/

namespace Sos

/-! ## Page tables and regions -/

/-- A page table entry: the page aligned part, `SWAP_MASK`, `REF_MASK` and `ELF_MASK`. -/
structure Pte where
  addr : Nat := 0
  swap : Bool := false
  ref : Bool := false
  elf : Bool := false
deriving DecidableEq, Repr, Inhabited

/-- `Pagetable2`, with the address of the frame it fills. -/
structure Pagetable2 where
  frame : Nat
  pages : Fin 1024 → Pte

/-- `Pagetable1`, with the address of the frame it fills. The frames of tables are theirs alone as
long as no frame is on the free list twice. -/
structure Pagetable where
  frame : Nat
  pages2 : Fin 1024 → Option Pagetable2

inductive RegionType
  | stack | heap | other | threadInit
deriving DecidableEq, Repr

/-- `Region`; `elffile` is the frame of the swap file that stands for the executable. -/
structure Region where
  type : RegionType
  base : Nat
  size : Nat
  filesize : Nat := 0
  rights : Nat
  mapDirectly : Bool := false
  elffile : Option Nat := none
deriving DecidableEq, Repr

/-! ## Processes -/

inductive ProcessState
  | start | alive | wait | sleep | zombie
deriving DecidableEq, Repr

inductive ProcessType
  | process | rootthread
deriving DecidableEq, Repr

inductive IpcFilter
  | nonblocking | blocking | all | none
deriving DecidableEq, Repr

/-- An open file: the vnode is named by its address. -/
structure VFile where
  vnode : Option Nat := none
  fmode : Nat := 0
  fp : Int := 0
  ref : Int := 1
deriving DecidableEq, Repr

theorem toNat_lt_fds {fd : Int} (h : 0 ≤ fd ∧ fd < 19) : fd.toNat < 19 := by
  omega

/-- The PCB; its pid is the place it has in the process table. `inc` is a ghost: it tells apart the
processes that had the same pid in turn. -/
structure Process where
  size : Int := 0
  state : ProcessState := .start
  psType : ProcessType := .process
  ipcAccept : IpcFilter := .all
  pagetable : Pagetable
  regions : List Region := []
  fds : Fin 19 → Int := fun _ => vfsNilFile
  files : Fin 16 → VFile := fun _ => {}
  waitingOn : Int := waitNobody
  fin : Option Path := none
  inc : Nat

/-- An entry of `sosProcs`. -/
inductive Slot
  | null
  | placeholder
  | pcb (p : Process)

/-- The PCB in a slot, if there is one. -/
def Slot.pcb? : Slot → Option Process
  | .pcb p => some p
  | _ => none

/-! ## Swap files -/

/-- `Swapfile`: `SwapfileData` and the chain of free slots. -/
structure Swapfile where
  path : Path
  fd : Int
  head : Nat
  usage : Int
  slots : Nat → Nat

/-- A `Swapfile *`. -/
inductive SwapfilePtr
  | null
  | default
  | elf (frame : Nat)
deriving DecidableEq, Repr

/-! ## Requests -/

/-- `pr_stage_t`. -/
inductive PrStage
  | swapinOpen | swapinLseek | swapinRead | swapinClose
  | swapoutOpen | swapoutWrite | swapoutClose
deriving DecidableEq, Repr

/-- The functions `swapinFinish` points to. -/
inductive SwapinFinish
  | panic | finishSwapin | finishSwapelf
deriving DecidableEq, Repr

/-- The functions `callback` points to. -/
inductive Callback
  | null | pagerContinue | copyInContinue | copyOutContinue
deriving DecidableEq, Repr

/-- `PagerRequest`. `allocPagerRequest` leaves `stage`, `diskAddr` and `size` as `malloc` gave
them; `inc` is a ghost, the incarnation of the process the request was made for. -/
structure PagerRequest where
  stage : Option PrStage := none
  pid : Pid
  addr : Nat
  diskAddr : Nat := 0
  sf : SwapfilePtr
  rights : Nat
  offset : Int := -1
  size : Int := 0
  swapinFinish : SwapinFinish := .panic
  callback : Callback
  inc : Nat
deriving DecidableEq, Repr

/-- `elfload_stage_t`. -/
inductive ElfloadStage
  | open | checkExec | readHeader | close
deriving DecidableEq, Repr

/-- `ElfloadRequest`. -/
structure ElfloadRequest where
  stage : ElfloadStage := .open
  path : Path
  fd : Int := vfsNilFile
  parent : Pid
  child : Pid
  fdout : Option Path := none
  fderr : Option Path := none
  fdin : Option Path := none
deriving DecidableEq, Repr

/-- An entry of `requests`: the `rtype_t` is the constructor. -/
inductive Request
  | swapout (pr : PagerRequest)
  | swapin (pr : PagerRequest)
  | elfload (er : ElfloadRequest)
deriving DecidableEq, Repr

/-! ## Messages -/

/-- A message to the root server. The path of an `open` is the text in the sender's copy buffer;
the `ps` messages are the private ones made on behalf of another process. -/
inductive VfsCall
  | open (path : Path) (mode readers writers : Nat)
  | close (fd : Int)
  | lseek (fd : Int) (pos : Nat)
  | read (fd : Int) (nbyte : Nat)
  | write (fd : Int) (nbyte : Nat)
  | stat
  | psOpen (pid : Pid) (path : Path) (mode : Nat)
  | psDup (pid : Pid)
  | psFlush (pid : Pid) (fd : Nat)
  | psClose (pid : Pid) (fd : Nat)
deriving DecidableEq, Repr

/-- A reply to a user thread: the pid and the words. -/
structure Reply where
  pid : Pid
  words : List Int
deriving DecidableEq, Repr

/-! ## The kernel -/

/-- The assertions of the modelled functions. -/
inductive Site
  | pagerFrameFreeAligned | mapPageAligned | unmapPageAligned | prepareDataAligned
  | deleteAllocListEmpty | deleteAllocListProcess | pagerFrameAllocLimit | pagerActionFrame
  | panic | heapGrowHeap
  | finishElfloadType | setRegionOnElfAligned | continueElfloadStat | continueElfloadChild
  | continueElfloadStage | startElfloadType
  | dequeueRequestActive | queueRequestIdle | queueRequestActive
  | finishSwapoutType | finishSwapoutSwapin | finishSwapinType | finishSwapinSwap
  | finishSwapelfSize
  | continueSwapinRead | continueSwapinOffset | continueSwapinSize | continueSwapinStage
  | continueSwapoutOffset | continueSwapoutSize | continueSwapoutStage
  | startSwapinType | startSwapinRegion | startSwapinFile
  | startSwapoutProcess | startSwapoutRegion | startSwapoutAligned | startSwapoutSlot
  | startRequestNull | startRequestActive | startPagerRequestNull | startPagerRequestType
  | startPagerRequestPinned
  | swapfileOpenFd | swapfileCloseFd | swapfileGetFd | swapfileSetFdClosed | swapfileSetFdNil
  | swapslotAllocUsage | swapslotFreeAligned | swapslotFreeUsage
  | processExistsRange | processPrepareNil | processPrepareExists | reservePidExists
  | listUnshiftNull
deriving DecidableEq, Repr

/-- What stops the pager thread: a failed assertion, a use of a pointer that is NULL, reserved or
dangling, or an array index out of range. `nullProcess` is the page table or the regions of a
process that is not there, `placeholder` the PCB of a reserved pid, `danglingSwapfile` a swap file
that is NULL or has been freed. `outOfFuel` bounds the mutual recursion of the model. -/
inductive Fault
  | assertion (site : Site)
  | nullProcess
  | placeholder
  | danglingSwapfile
  | nullPointer
  | outOfBounds
  | outOfFuel
deriving DecidableEq, Repr

/-- The global state. Four fields are ghosts: `exhausted` is set once `frame_alloc` has returned 0,
`unbacked` once it did so for a user page, which is then recorded as resident all the same,
`overrun` once a waiting copy has been restarted that needed more than was there for it (see
`startPagerRequest`), and `incs` counts the processes made. -/
structure Kernel where
  /-- The free list of `frames.c`, from `firstFree` on. -/
  free : List Nat
  totalInUse : Int
  exhausted : Bool
  unbacked : Bool
  sosProcs : Pid → Slot
  nextPid : Pid
  tidOffset : Pid
  allocLimit : Int
  alloced : List (Pid × Nat)
  swapped : List (Pid × Nat)
  defaultSwapfile : Swapfile
  /-- The swap files made for executables, by the address of their frame. -/
  elffiles : Nat → Option Swapfile
  requests : List Request
  requestActive : Bool
  pinnedFrame : Nat
  virtualPager : Pid
  copyInOutData : Pid → Nat
  copyInOutBuffer : Nat → UInt8
  memory : Nat → UInt8
  /-- What the L4 address spaces map. -/
  mmu : Pid → Page → Option Nat
  /-- The path in each vnode, by the address of the vnode. -/
  vnodePath : Nat → Path
  replies : List Reply
  calls : List VfsCall
  overrun : Bool
  incs : Nat

/-- Code of the pager thread. -/
abbrev PagerM := EStateM Fault Kernel

end Sos
