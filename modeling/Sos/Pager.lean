import Sos.Pagetable
import Mathlib.Data.Finset.Card

/-!
# The pager

The asynchronous part of `pager.c`: the request queue, the page fault algorithm (`pagerAction`),
swapping in and out through chains of file system calls, and `copyin`/`copyout`.

`startRequest` and `pager` call each other: starting a queued request may serve it at once, serving
a request may queue another, and a copy goes from page to page through `pager`. The functions below
take these two as a parameter (`Calls`), and `calls n` ties the knot for a depth of `n`.
-/

namespace Sos

open Hoare

variable {k : Kernel} {E : Fault → Kernel → Prop}

/-- The two functions the others call back into. -/
structure Calls where
  startRequest : PagerM Unit
  pager : PagerRequest → PagerM Unit

/-! ## The queue -/

/-- `requestsPeek`, with the type. -/
def requestsPeek : PagerM Request := do
  match (← get).requests with
  | [] => throw .nullPointer
  | r :: _ => return r

/-- `requestsPeek` where a `REQUEST_SWAPIN` is asserted. -/
def peekSwapin (site : Site) : PagerM PagerRequest := do
  match ← requestsPeek with
  | .swapin pr => return pr
  | _ => throw (.assertion site)

theorem wp_requestsPeek {Q : Request → Kernel → Prop} :
    Wp requestsPeek k Q E ↔
      (k.requests = [] → E .nullPointer k) ∧ (∀ r rest, k.requests = r :: rest → Q r k) := by
  unfold requestsPeek
  rw [wp_bind, wp_get]
  split
  · next h => simp [wp_throw, h]
  · next r rest h => simp [wp_pure, h]

theorem wp_peekSwapin {site : Site} {Q : PagerRequest → Kernel → Prop} :
    Wp (peekSwapin site) k Q E ↔
      (k.requests = [] → E .nullPointer k) ∧
      (∀ r rest, k.requests = r :: rest → (∀ pr, r ≠ .swapin pr) → E (.assertion site) k) ∧
      (∀ pr rest, k.requests = .swapin pr :: rest → Q pr k) := by
  unfold peekSwapin
  rw [wp_bind, wp_requestsPeek]
  refine and_congr_right fun _ => ⟨fun h => ⟨fun r rest hr hne => ?_, fun pr rest hr => ?_⟩, ?_⟩
  · have := h r rest hr
    cases r with
    | swapin pr => exact absurd rfl (hne pr)
    | swapout pr | elfload er => exact wp_throw.mp this
  · exact wp_pure.mp (h _ rest hr)
  · rintro ⟨hne, hQ⟩ r rest hr
    cases r with
    | swapin pr => exact wp_pure.mpr (hQ pr rest hr)
    | swapout pr | elfload er => exact wp_throw.mpr (hne _ rest hr (by simp))

/-- Write to the request at the head of the queue. -/
def setHead (r : Request) : PagerM Unit :=
  modify fun k => { k with requests := r :: k.requests.tail }

/-- `list_unshift(requests)`. -/
def requestsUnshift : PagerM Unit := do
  assert (!(← get).requests.isEmpty) .listUnshiftNull
  modify fun k => { k with requests := k.requests.tail }

theorem wp_requestsUnshift {Q : Unit → Kernel → Prop}
    (hE : k.requests = [] → E (.assertion .listUnshiftNull) k)
    (hQ : ∀ r rest, k.requests = r :: rest → ∀ k', k' = { k with requests := rest } → Q () k') :
    Wp requestsUnshift k Q E := by
  unfold requestsUnshift
  rw [wp_bind, wp_get, wp_bind, wp_assert]
  cases hr : k.requests with
  | nil => exact ⟨fun h => by simp at h, fun _ => hE hr⟩
  | cons r rest =>
    refine ⟨fun _ => wp_modify.mpr (hQ r rest hr _ ?_), fun h => by simp at h⟩
    rw [hr]
    rfl

/-- `queueRequest`. -/
def queueRequest (c : Calls) (r : Request) : PagerM Unit := do
  let k ← get
  if k.requests.isEmpty then
    assert (!k.requestActive) .queueRequestIdle
    modify fun k => { k with requests := k.requests ++ [r] }
    c.startRequest
  else
    assert k.requestActive .queueRequestActive
    modify fun k => { k with requests := k.requests ++ [r] }

/-- `dequeueRequest`. -/
def dequeueRequest (c : Calls) : PagerM Unit := do
  assert (← get).requestActive .dequeueRequestActive
  modify fun k => { k with requestActive := false }
  requestsUnshift
  if (← get).requests.isEmpty then pure () else c.startRequest

/-- `allocPagerRequest`, for a process that is there. -/
def allocPagerRequest (pid : Pid) (addr rights : Nat) (sf : SwapfilePtr) (callback : Callback) :
    PagerM PagerRequest := do
  let p ← derefProcess pid
  return { pid, addr, rights, sf, callback, inc := p.inc }

/-! ## Serving a fault -/

/-- The end of `pagerAction`: enter the frame and map the page. -/
def enterFrame (pr : PagerRequest) (frame : Nat) : PagerM Bool := do
  setEntry pr.pid pr.addr { addr := frame, ref := true }
  mapPage pr.pid (pageAlign pr.addr) frame
  return true

/-- `pagerAction`: whether the page is there now. -/
def pagerAction (c : Calls) (pr : PagerRequest) : PagerM Bool := do
  match (← get).sosProcs pr.pid with
  | .null => return false
  | .placeholder => throw .placeholder
  | .pcb p =>
    match p.regions.find? (findRegion pr.addr) with
    | none =>
      discard <| processDelete pr.pid
      return false
    | some r =>
      if r.rights &&& pr.rights = 0 then
        discard <| processDelete pr.pid
        return false
      else
        let entry ← lookupEntry pr.pid pr.addr
        if entry.swap then
          queueRequest c (.swapin pr)
          return false
        else if entry.addr ≠ 0 then
          enterFrame pr entry.addr
        else if r.mapDirectly then
          enterFrame pr (pageAlign pr.addr)
        else
          let frame ← pagerFrameAlloc pr.pid (pageAlign pr.addr)
          assert (pageOffset frame = 0) .pagerActionFrame
          if frame = 0 then
            queueRequest c (.swapin pr)
            return false
          else
            enterFrame pr frame

/-! ## Continuations -/

/-- `pagerContinue`. -/
def pagerContinue (pr : PagerRequest) : PagerM Unit := do
  syscallReplyV (← processGetTid pr.pid) []

/-- `LO_HALF` and `HI_HALF`. -/
def loHalf (w : Nat) : Nat := w % 65536
def hiHalf (w : Nat) : Nat := w / 65536 % 65536

/-- How far the copying loop gets with `n` bytes to go when the physical address is `a`: to the end
of the page at most. -/
def copySpan (a : Nat) : Nat → Nat
  | 0 => 0
  | n + 1 => if pageOffset (a + 1) = 0 then 1 else copySpan (a + 1) n + 1

/-- The size and the offset of the copy a process has under way. -/
def Kernel.copySize (k : Kernel) (pid : Pid) : Nat := min copyBufsiz (loHalf (k.copyInOutData pid))
def Kernel.copyOffset (k : Kernel) (pid : Pid) : Nat := hiHalf (k.copyInOutData pid)

/-- The end of `copyInContinue` and `copyOutContinue`: remember the offset, then reply or go on
with the next page. -/
def copyFinish (c : Calls) (pr : PagerRequest) (size offset : Nat) : PagerM Unit := do
  modify fun k => { k with
    copyInOutData := Function.update k.copyInOutData pr.pid (size + offset * 65536) }
  if offset = size then
    syscallReplyV pr.pid []
  else
    c.pager { pr with addr := pageAlign ((pr.addr + pageSize) % wordLimit) }

/-- `copyInContinue`. -/
def copyInContinue (c : Calls) (pr : PagerRequest) : PagerM Unit := do
  prepareData pr.pid (pageAlign pr.addr)
  let k ← get
  let size := k.copySize pr.pid
  let offset := k.copyOffset pr.pid
  let entry ← lookupEntry pr.pid (pageAlign pr.addr)
  let src := entry.addr + pageOffset pr.addr
  let n := copySpan src (size - offset)
  modify fun k => { k with
    copyInOutBuffer :=
      blit k.copyInOutBuffer (pagerBuffer pr.pid + offset) n (fun i => k.memory (src + i)) }
  copyFinish c pr size (offset + n)

/-- `copyOutContinue`; the caches are fixed after the offset has been remembered. -/
def copyOutContinue (c : Calls) (pr : PagerRequest) : PagerM Unit := do
  let k ← get
  let size := k.copySize pr.pid
  let offset := k.copyOffset pr.pid
  let entry ← lookupEntry pr.pid (pageAlign pr.addr)
  let dst := entry.addr + pageOffset pr.addr
  let n := copySpan dst (size - offset)
  modify fun k => { k with
    memory :=
      blit k.memory dst n (fun i => k.copyInOutBuffer (pagerBuffer pr.pid + offset + i)) }
  prepareData pr.pid (pageAlign pr.addr)
  copyFinish c pr size (offset + n)

/-- `pr->callback(pr)`. -/
def runCallback (c : Calls) (pr : PagerRequest) : PagerM Unit :=
  match pr.callback with
  | .null => throw .nullPointer
  | .pagerContinue => pagerContinue pr
  | .copyInContinue => copyInContinue c pr
  | .copyOutContinue => copyOutContinue c pr

/-- `pager`. -/
def pager (c : Calls) (pr : PagerRequest) : PagerM Unit := do
  if ← pagerAction c pr then
    runCallback c pr
    let k ← get
    if !k.requests.isEmpty && !k.requestActive then c.startRequest else pure ()
  else
    pure ()

/-! ## Starting to swap -/

/-- `startSwapin`. -/
def startSwapin : PagerM Unit := do
  let f ← frameAlloc
  modify fun k => { k with pinnedFrame := f }
  let pr ← peekSwapin .startSwapinType
  let entry ← lookupEntry pr.pid pr.addr
  let p ← derefProcess pr.pid
  match p.regions.find? (findRegion pr.addr) with
  | none => throw (.assertion .startSwapinRegion)
  | some r =>
    let sf ←
      if entry.elf then do
        assert (pr.sf != .null) .startSwapinFile
        pure (match r.elffile with | none => SwapfilePtr.null | some f => .elf f)
      else pure .default
    setHead (.swapin { pr with
      sf := sf
      swapinFinish := if entry.elf then .finishSwapelf else .finishSwapin
      size := pageSize
      stage := some .swapinOpen })
    swapfileOpen sf fmRead

/-- `startSwapout`. -/
def startSwapout : PagerM Unit := do
  let found ← deleteAllocList
  let entry ← lookupEntry found.1 found.2
  let p ← derefProcess found.1
  assert (p.regions.any (findPaRegion found.2)) .startSwapoutRegion
  assert (pageOffset found.2 = 0) .startSwapoutAligned
  prepareData found.1 found.2
  unmapPage found.1 found.2
  let pr ← allocPagerRequest found.1 entry.addr fmRead .default .null
  modify fun k => { k with requests := .swapout pr :: k.requests }
  let diskAddr ← pagerSwapslotAlloc found.1
  assert (pageOffset diskAddr = 0) .startSwapoutSlot
  setEntry found.1 found.2 { entry with swap := true, addr := diskAddr }
  setHead (.swapout { pr with
    diskAddr := diskAddr
    stage := some .swapoutOpen
    size := pageSize })
  swapfileOpen .default fmWrite

/-! ## Restarting queued requests -/

/-- The addresses at which a copy goes on after the page it is at. -/
def Kernel.furtherPages (k : Kernel) (pr : PagerRequest) : List Nat :=
  let left := k.copySize pr.pid - k.copyOffset pr.pid
  let here := pageSize - pageOffset pr.addr
  (List.range ((left - here + (pageSize - 1)) / pageSize)).map fun i =>
    (pageAlign pr.addr + (i + 1) * pageSize) % wordLimit

/-- Whether a callback goes on with a copy. -/
def Callback.copies : Callback → Bool
  | .copyInContinue | .copyOutContinue => true
  | _ => false

/-- The pages a request is still to touch: those of the rest of a copy, else just its own. -/
def Kernel.pagesAhead (k : Kernel) (pr : PagerRequest) : List Nat :=
  pr.addr :: if pr.callback.copies then k.furtherPages pr else []

/-- The second levels that are not there for them. -/
def Pagetable.missingTables (pt : Pagetable) (pages : List Nat) : Finset (Fin 1024) :=
  (pages.map fun a => offset1 (pageNo a)).toFinset.filter fun i => (pt.pages2 i).isNone

/-- The page is in a region of the process that grants one of the rights asked for. -/
def Process.Grants (p : Process) (pr : PagerRequest) (r : Region) : Prop :=
  p.regions.find? (findRegion pr.addr) = some r ∧ r.rights &&& pr.rights ≠ 0

/-- Whether there is such a region. -/
def Process.granted (p : Process) (pr : PagerRequest) : Bool :=
  (p.regions.find? (findRegion pr.addr)).any fun r => r.rights &&& pr.rights != 0

/-- How many of the pages need a frame: they have none, and are not mapped directly. -/
def Process.missing (p : Process) (pages : List Nat) : Nat :=
  pages.countP fun a => (p.pagetable.entry (pageNo a)).addr = 0 ∧
    ¬ (p.regions.find? (findRegion a)).any (·.mapDirectly)

/-- None of the pages is on disk, and there are frames for those that need one and for their page
tables. -/
def Kernel.framesFor (k : Kernel) (p : Process) (pages : List Nat) : Prop :=
  (∀ a ∈ pages, (p.pagetable.entry (pageNo a)).swap = false) ∧ p.missing pages ≤ k.allocLimit ∧
    p.missing pages + (p.pagetable.missingTables pages).card ≤ k.freeFrames.length

instance (k : Kernel) (p : Process) (pages : List Nat) : Decidable (k.framesFor p pages) :=
  inferInstanceAs (Decidable (_ ∧ _ ∧ _))

/-- The pages a request will get to: a copy ends at the first one its process may not have. -/
def Kernel.grantedAhead (k : Kernel) (p : Process) (pr : PagerRequest) : List Nat :=
  (k.pagesAhead pr).takeWhile fun a => p.granted { pr with addr := a }

/-- A request is served without queueing again: its process may have the page, there are frames for
all pages it will get to, and a copy has not gone past its end. -/
def Kernel.Servable (k : Kernel) (p : Process) (pr : PagerRequest) : Prop :=
  p.granted pr ∧ k.framesFor p (k.grantedAhead p pr) ∧
    (pr.callback.copies → k.copyOffset pr.pid ≤ k.copySize pr.pid)

instance (k : Kernel) (p : Process) (pr : PagerRequest) : Decidable (k.Servable p pr) :=
  inferInstanceAs (Decidable (_ ∧ _ ∧ _))

/-- Whether a waiting request, restarted while others wait behind it, may fail to be served. -/
def Kernel.overruns (k : Kernel) (pr : PagerRequest) : Bool :=
  match (k.sosProcs pr.pid).pcb? with
  | none => false
  | some p => !k.requests.tail.isEmpty && !decide (k.Servable p pr)

/-- `startPagerRequest`. When a frame has become free in the meantime the request leaves the queue,
nothing is active any more, and it is served at once. -/
def startPagerRequest (c : Calls) : PagerM Unit := do
  match ← requestsPeek with
  | .elfload _ => throw (.assertion .startPagerRequestType)
  | .swapout nextPr | .swapin nextPr =>
    let entry ← lookupEntry nextPr.pid nextPr.addr
    if entry.swap then
      startSwapin
    else
      let k ← get
      assert (k.pinnedFrame == 0) .startPagerRequestPinned
      if 0 < k.allocLimit then
        modify fun k => { k with
          requestActive := false
          overrun := k.overrun || k.overruns nextPr }
        requestsUnshift
        c.pager nextPr
      else
        startSwapout

/-- `startElfload`. -/
def startElfload : PagerM Unit := do
  match ← requestsPeek with
  | .elfload er =>
    strncpyToBuffer (← get).virtualPager er.path
    vfsCall (.open er.path fmRead fmUnlimitedRw fmUnlimitedRw)
  | _ => throw (.assertion .startElfloadType)

/-- `startRequest`. -/
def startRequest (c : Calls) : PagerM Unit := do
  let k ← get
  assert (!k.requests.isEmpty) .startRequestNull
  assert (!k.requestActive) .startRequestActive
  modify fun k => { k with requestActive := true }
  match ← requestsPeek with
  | .swapout _ | .swapin _ => startPagerRequest c
  | .elfload _ => startElfload

/-- The mutual calls, to a depth of `n`. -/
def calls : Nat → Calls
  | 0 => { startRequest := throw .outOfFuel, pager := fun _ => throw .outOfFuel }
  | n + 1 => { startRequest := startRequest (calls n), pager := pager (calls n) }

/-! ## Finishing a swap -/

/-- The part of `finishSwapin` by which a page leaves the disk: its slot is freed and its entry
cleared. -/
def leaveDisk (pid : Pid) (addr : Nat) (entry : Pte) : PagerM Unit := do
  swappedDelete (pid, entry.addr)
  setEntry pid addr { entry with swap := false, addr := 0 }

/-- `finishSwapin` for a process that is there. -/
def finishSwapinFor (c : Calls) (request : PagerRequest) : PagerM Unit := do
  let addr := pageAlign request.addr
  let entry ← lookupEntry request.pid addr
  assert entry.swap .finishSwapinSwap
  leaveDisk request.pid addr entry
  if 0 < (← get).allocLimit then
    discard <| pagerAction c request
    let entry ← lookupEntry request.pid addr
    modify fun k => { k with
      memory := blit k.memory entry.addr pageSize (fun i => k.memory (k.pinnedFrame + i)) }
    prepareData request.pid addr
    frameFree (← get).pinnedFrame
    modify fun k => { k with pinnedFrame := 0 }
    runCallback c request
    dequeueRequest c
  else
    startSwapout

/-- `finishSwapin`. The branch for a process that has died does not return: when it is through, the
entry is looked up in the page table that is not there. -/
def finishSwapin (c : Calls) : PagerM Unit := do
  let request ← peekSwapin .finishSwapinType
  match (← get).sosProcs request.pid with
  | .null =>
    frameFree (← get).pinnedFrame
    modify fun k => { k with pinnedFrame := 0 }
    runCallback c request
    dequeueRequest c
    throw .nullProcess
  | .placeholder => throw .placeholder
  | .pcb _ => finishSwapinFor c request

/-- The part of `finishSwapelf` that zeroes the memory behind the end of the file, when the page at
`addr` is the one the file ends in. -/
def zeroTail (r : Region) (addr : Nat) : PagerM Unit := do
  let fileTop := (r.base + r.filesize) % wordLimit
  if pageAlign fileTop = pageAlign addr then
    assert (r.filesize ≤ r.size) .finishSwapelfSize
    modify fun k => { k with
      memory := blit k.memory (k.pinnedFrame + pageOffset fileTop) (r.size - r.filesize)
        (fun _ => 0) }
  else pure ()

/-- `finishSwapelf`: the memory behind the end of the file is zeroed, the page is no longer on the
ELF file, and the rest is as for a page from the default swap file. -/
def finishSwapelf (c : Calls) : PagerM Unit := do
  match ← requestsPeek with
  | .elfload _ => throw .nullPointer
  | .swapout pr | .swapin pr =>
    let p ← derefProcess pr.pid
    let entry ← lookupEntry pr.pid pr.addr
    match p.regions.find? (findRegion pr.addr) with
    | none => throw .nullPointer
    | some r =>
      zeroTail r pr.addr
      setEntry pr.pid pr.addr { entry with elf := false }
      finishSwapin c

/-- What `finishSwapout` puts into the new frame: the contents of the pinned frame, which is then
given back, or zeros. -/
def fillFrame (frame : Nat) : PagerM Unit := do
  let k ← get
  if k.pinnedFrame ≠ 0 then
    set ({ k with
      memory := blit k.memory frame pageSize (fun i => k.memory (k.pinnedFrame + i))
      pinnedFrame := 0 }.frameFree k.pinnedFrame)
  else
    set { k with memory := blit k.memory frame pageSize (fun _ => 0) }

/-- `finishSwapout` for a process that is there. -/
def finishSwapoutFor (c : Calls) (swapin : PagerRequest) : PagerM Unit := do
  discard <| pagerAction c swapin
  let entry ← lookupEntry swapin.pid swapin.addr
  fillFrame entry.addr
  prepareData swapin.pid (pageAlign swapin.addr)
  runCallback c swapin
  dequeueRequest c

/-- `finishSwapout`. As in `finishSwapin`, the branch for a process that has died goes on to its
page table. -/
def finishSwapout (c : Calls) : PagerM Unit := do
  match ← requestsPeek with
  | .swapout swapout =>
    requestsUnshift
    pagerFrameFree (some swapout.pid) swapout.addr
    let swapin ← peekSwapin .finishSwapoutSwapin
    match (← get).sosProcs swapin.pid with
    | .null =>
      runCallback c swapin
      dequeueRequest c
      throw .nullProcess
    | .placeholder => throw .placeholder
    | .pcb _ => finishSwapoutFor c swapin
  | _ => throw (.assertion .finishSwapoutType)

/-! ## The stages of a swap -/

/-- `readNonblocking` for what is left of a page. -/
def readRest (pr : PagerRequest) : PagerM Unit := do
  let fd ← swapfileGetFd pr.sf
  vfsCall (.read fd (min (ioMaxBuffer : Int) (pr.size - pr.offset)).toNat)

/-- `continueSwapin`, the request being at the head of the queue. -/
def continueSwapin (c : Calls) (pr : PagerRequest) (vfsRval : Int) : PagerM Unit := do
  match pr.stage with
  | some .swapinOpen =>
    swapfileSetFd pr.sf vfsRval
    let entry ← lookupEntry pr.pid (pageAlign pr.addr)
    let fd ← swapfileGetFd pr.sf
    vfsCall (.lseek fd entry.addr)
    setHead (.swapin { pr with offset := 0, stage := some .swapinLseek })
  | some .swapinLseek =>
    readRest pr
    setHead (.swapin { pr with stage := some .swapinRead })
  | some .swapinRead =>
    assert (0 < vfsRval) .continueSwapinRead
    assert (pr.offset ≤ pageSize) .continueSwapinOffset
    modify fun k => { k with
      memory := blit k.memory (k.pinnedFrame + pr.offset.toNat) vfsRval.toNat
        (fun i => k.copyInOutBuffer (pagerBuffer k.virtualPager + i)) }
    let pr := { pr with offset := pr.offset + vfsRval }
    setHead (.swapin pr)
    assert (pr.offset ≤ pr.size) .continueSwapinSize
    if pr.offset = pr.size then
      swapfileClose pr.sf
      setHead (.swapin { pr with stage := some .swapinClose })
    else
      readRest pr
  | some .swapinClose =>
    match pr.swapinFinish with
    | .panic => throw (.assertion .panic)
    | .finishSwapin => finishSwapin c
    | .finishSwapelf => finishSwapelf c
  | _ => throw (.assertion .continueSwapinStage)

/-- `continueSwapout`, the request being at the head of the queue. -/
def continueSwapout (c : Calls) (pr : PagerRequest) (vfsRval : Int) : PagerM Unit := do
  assert (pr.offset ≤ pageSize) .continueSwapoutOffset
  match pr.stage with
  | some .swapoutOpen =>
    swapfileSetFd pr.sf vfsRval
    let fd ← swapfileGetFd pr.sf
    vfsCall (.lseek fd pr.diskAddr)
    setHead (.swapout { pr with offset := 0, stage := some .swapoutWrite })
  | some .swapoutWrite =>
    assert (pr.offset ≤ pr.size) .continueSwapoutSize
    if pr.offset = pr.size then
      swapfileClose pr.sf
      setHead (.swapout { pr with stage := some .swapoutClose })
    else
      let size := min (ioMaxBuffer : Int) (pr.size - pr.offset)
      modify fun k => { k with
        copyInOutBuffer := blit k.copyInOutBuffer (pagerBuffer k.virtualPager) size.toNat
          (fun i => k.memory (pr.addr + pr.offset.toNat + i)) }
      let fd ← swapfileGetFd pr.sf
      vfsCall (.write fd size.toNat)
      setHead (.swapout { pr with offset := pr.offset + size })
  | some .swapoutClose => finishSwapout c
  | _ => throw (.assertion .continueSwapoutStage)

/-! ## Copying in and out -/

/-- The start of `copyIn` and `copyOut`: what there is to copy, then a fault on the first page. -/
def copyStart (c : Calls) (pid : Pid) (addr size : Nat) (append : Bool) (rights : Nat)
    (callback : Callback) : PagerM Unit := do
  modify fun k => { k with
    copyInOutData := Function.update k.copyInOutData pid
      (if append then loHalf (loHalf (k.copyInOutData pid) + size) +
          hiHalf (k.copyInOutData pid) * 65536
       else loHalf size) }
  let pr ← allocPagerRequest pid addr rights .default callback
  pager c pr

/-- `copyIn`. -/
def copyIn (c : Calls) (pid : Pid) (src size : Nat) (append : Bool) : PagerM Unit :=
  copyStart c pid src size append fmRead .copyInContinue

/-- `copyOut`. -/
def copyOut (c : Calls) (pid : Pid) (dst size : Nat) (append : Bool) : PagerM Unit :=
  copyStart c pid dst size append fmWrite .copyOutContinue

end Sos
