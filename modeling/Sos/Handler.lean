import Sos.Elfload

/-!
# The message loop

`virtualPagerHandler` takes one message after the other: page faults and system calls of user
processes, and the root server's answers to the file system calls of the pager. A message is an
`Event`, handling it is `handle`, and a run of the system is a sequence of events from a state in
which the pager has just been started (`Booted`).
-/

namespace Sos

open Hoare

/-! ## Events -/

/-- A message to the pager. `vfsReply` brings the answer to a file system call together with what
the root server has left in the pager's copy buffer. -/
inductive Event
  | pagefault (pid : Pid) (addr : UInt32) (rights : Fin 8)
  | copyin (pid : Pid) (src size : UInt32) (append : Bool)
  | copyout (pid : Pid) (dst size : UInt32) (append : Bool)
  | vfsReply (rval : Int) (buffer : Nat → UInt8)
  | moremem (pid : Pid) (nb : UInt32)
  | memloc (pid : Pid) (addr : UInt32)
  | memuse (pid : Pid)
  | swapuse (pid : Pid)
  | physuse (pid : Pid)
  | processWait (pid : Pid) (w : UInt32)
  | processDelete (pid : Pid) (w : UInt32)
  | processCreate (pid : Pid) (fdout fderr fdin : Int)
  | debugFlush (pid : Pid)
  | exception (pid : Pid)

/-- The user process a message comes from. -/
def Event.sender : Event → Option Pid
  | .pagefault pid _ _ | .copyin pid _ _ _ | .copyout pid _ _ _ | .moremem pid _ | .memloc pid _
  | .memuse pid | .swapuse pid | .physuse pid | .processWait pid _ | .processDelete pid _
  | .processCreate pid _ _ _ | .debugFlush pid | .exception pid => some pid
  | .vfsReply _ _ => none

/-! ## The smaller system calls -/

/-- Change the first heap region. -/
def growHeap (nb : Nat) : List Region → List Region
  | [] => []
  | r :: rs =>
    if r.type = .heap then { r with size := (nb + r.size) % wordLimit } :: rs
    else r :: growHeap nb rs

/-- `SOS_MOREMEM`: `heapGrow` leaves the old end of the heap in the caller's copy buffer. -/
def moremem (pid : Pid) (nb : Nat) : PagerM Unit := do
  let p ← derefProcess pid
  match p.regions.find? (·.type = .heap) with
  | none => throw (.assertion .heapGrowHeap)
  | some heap =>
    modify fun k => { k with
      copyInOutBuffer := blit k.copyInOutBuffer (pagerBuffer pid) 4
        (wordByte ((heap.base + heap.size) % wordLimit)) }
    modify fun k => k.updProcess pid fun p => { p with regions := growHeap nb p.regions }
    syscallReply pid 1

/-- What `SOS_MOREMEM` does for a process with a heap. -/
theorem moremem_spec {k : Kernel} {pid : Pid} {nb : Nat} {p : Process} {heap : Region}
    (hp : k.sosProcs pid = .pcb p) (hheap : p.regions.find? (·.type = .heap) = some heap) :
    Wp (moremem pid nb) k
      (fun _ k' => k'.copyInOutBuffer = blit k.copyInOutBuffer (pagerBuffer pid) 4
          (wordByte ((heap.base + heap.size) % wordLimit)) ∧
        k'.sosProcs pid = .pcb { p with regions := growHeap nb p.regions })
      fun _ _ => False := by
  unfold moremem syscallReply syscallReplyV
  rw [wp_bind, wp_derefProcess]
  refine ⟨fun h => ?_, fun h => ?_, fun p' hp' => ?_⟩
  · simp [hp] at h
  · simp [hp] at h
  · obtain rfl : p = p' := by simpa [hp] using hp'
    rw [hheap]
    dsimp only
    rw [wp_bind, wp_modify, wp_bind, wp_modify, wp_bind, wp_get]
    simp only [Kernel.updProcess, hp, setSlot_self, wp_modify]
    unfold Kernel.reply
    split <;> exact ⟨rfl, setSlot_self ..⟩

/-- An entry as the word it is. -/
def Pte.word (e : Pte) : Nat :=
  e.addr + (if e.swap then 1 else 0) + (if e.ref then 2 else 0) + (if e.elf then 4 else 0)

/-- `memoryUsage`. -/
def Kernel.memoryUsage (k : Kernel) : Int := frameAllocLimit - k.allocLimit

/-- `SOS_MEMLOC`. -/
def memloc (pid : Pid) (addr : Nat) : PagerM Unit := do
  let entry ← lookupEntry pid (pageAlign addr)
  syscallReply pid entry.word

/-- `process_wait_any` and `process_wait_for`. A pid without a process is waited for as
`NIL_PID`, which is `WAIT_ANYBODY`. -/
def processWait (pid : Pid) (w : Nat) : PagerM Unit := do
  if w = wordLimit - 1 then
    modify fun k => k.updProcess pid ({ · with waitingOn := waitAnybody, state := .wait })
  else if h : w < 256 then
    match (← get).sosProcs ⟨w, h⟩ with
    | .null => modify fun k => k.updProcess pid ({ · with waitingOn := nilPid, state := .wait })
    | .placeholder => throw .placeholder
    | .pcb _ => modify fun k => k.updProcess pid ({ · with waitingOn := w, state := .wait })
  else throw .outOfBounds

/-- `SOS_PROCESS_DELETE`: a process that deletes itself gets no answer. -/
def processDeleteCall (pid : Pid) (w : Nat) : PagerM Unit := do
  if h : w < 256 then
    let rval ← processDelete ⟨w, h⟩
    if pid.val = w then pure () else syscallReply pid rval
  else throw .outOfBounds

/-- `SOS_DEBUG_FLUSH`: everything the caller has mapped is unmapped. -/
def debugFlush (pid : Pid) : PagerM Unit := do
  modify fun k => { k with mmu := Function.update k.mmu pid (fun _ => none) }
  syscallReplyV pid []

/-! ## The loop -/

/-- `vfsHandler`. -/
def vfsHandler (c : Calls) (vfsRval : Int) : PagerM Unit := do
  match ← requestsPeek with
  | .swapout pr => continueSwapout c pr vfsRval
  | .swapin pr => continueSwapin c pr vfsRval
  | .elfload er => continueElfload c er vfsRval

/-- One turn of the loop of `virtualPagerHandler`. -/
def handleWith (c : Calls) : Event → PagerM Unit
  | .pagefault pid addr rights => do
    let pr ← allocPagerRequest pid addr.toNat rights.val .default .pagerContinue
    pager c pr
  | .copyin pid src size append => copyIn c pid src.toNat size.toNat append
  | .copyout pid dst size append => copyOut c pid dst.toNat size.toNat append
  | .vfsReply rval buffer => do
    modify fun k => { k with
      copyInOutBuffer := blit k.copyInOutBuffer (pagerBuffer k.virtualPager) copyBufsiz buffer }
    vfsHandler c rval
  | .moremem pid nb => moremem pid nb.toNat
  | .memloc pid addr => memloc pid addr.toNat
  | .memuse pid => do syscallReply pid (← get).memoryUsage
  | .swapuse pid => do syscallReply pid (← get).defaultSwapfile.usage
  | .physuse pid => do syscallReply pid (← get).totalInUse
  | .processWait pid w => processWait pid w.toNat
  | .processDelete pid w => processDeleteCall pid w.toNat
  | .processCreate pid fdout fderr fdin => processCreate c pid fdout fderr fdin
  | .debugFlush pid => debugFlush pid
  | .exception pid => discard <| processDelete pid

/-- Handling a message with the calls going at most `n` deep. -/
def handle (n : Nat) (e : Event) : PagerM Unit := handleWith (calls n) e

/-- The answer has arrived in the pager's buffer. -/
def Kernel.received (k : Kernel) (buffer : Nat → UInt8) : Kernel :=
  { k with
    copyInOutBuffer := blit k.copyInOutBuffer (pagerBuffer k.virtualPager) copyBufsiz buffer }

theorem vfsReply_iff {k : Kernel} {n : Nat} {rval : Int} {buffer : Nat → UInt8}
    {Q : Unit → Kernel → Prop} {E : Fault → Kernel → Prop} :
    Wp (handle n (.vfsReply rval buffer)) k Q E ↔
      Wp (vfsHandler (calls n) rval) (k.received buffer) Q E := by
  unfold handle handleWith
  dsimp only
  rw [wp_bind, wp_modify]
  rfl

/-- There is a process in the slot, and not a thread of the root server. -/
def Slot.isUser : Slot → Bool
  | .pcb p => p.psType = .process
  | _ => false

theorem Slot.exists_pcb_of_isUser {s : Slot} (h : s.isUser = true) :
    ∃ p, s = .pcb p ∧ p.psType = .process := by
  cases s with
  | pcb p => exact ⟨p, rfl, by simpa [Slot.isUser] using h⟩
  | _ => simp [Slot.isUser] at h

/-- A message can arrive: its sender is a user process, or it answers a call of the pager. -/
def Enabled (k : Kernel) (e : Event) : Prop :=
  match e.sender with
  | some pid => pid ≠ rootserverno ∧ (k.sosProcs pid).isUser = true
  | none => k.requestActive = true

instance (k : Kernel) (e : Event) : Decidable (Enabled k e) := by
  unfold Enabled
  split <;> infer_instance

/-- One step of the system. -/
def Step (k : Kernel) (e : Event) (k' : Kernel) : Prop :=
  Enabled k e ∧ ∃ n, handle n e k = .ok () k'

/-- The process has a request in the queue. -/
def Kernel.queued (k : Kernel) (pid : Pid) : Bool :=
  k.requests.any fun
    | .swapin pr => pr.pid = pid
    | .swapout pr => pr.pid = pid
    | .elfload er => er.parent = pid

/-- No process is deleted that has a request in the queue. -/
def SparesQueued (k : Kernel) : Event → Prop
  | .exception pid => k.queued pid = false
  | .processDelete _ w => ∀ h : w.toNat < 256, k.queued ⟨w.toNat, h⟩ = false
  | _ => True

instance (k : Kernel) (e : Event) : Decidable (SparesQueued k e) := by
  unfold SparesQueued
  rcases e <;> infer_instance

/-! ## Starting up -/

/-- The frames `M` that `frame_init` was given are shared out between the free list and the root
server's threads, which are the only processes. -/
structure Threads (M : Set Nat) (k : Kernel) : Prop where
  managed : ∀ f ∈ M, f ≠ 0 ∧ pageOffset f = 0
  free_managed : ∀ f ∈ k.free, f ∈ M
  free_nodup : k.free.Nodup
  threads : ∀ pid p, k.sosProcs pid = .pcb p → p.regions = [] ∧ p.pagetable.frame ∈ M ∧
    p.pagetable.frame ∉ k.free ∧ ∀ i, p.pagetable.pages2 i = none
  threads_inj : ∀ pid p pid' p', k.sosProcs pid = .pcb p → k.sosProcs pid' = .pcb p' →
    p.pagetable.frame = p'.pagetable.frame → pid = pid'
  rootserver : ∃ p, k.sosProcs rootserverno = .pcb p
  rootthreads : ∀ pid p, pid ≠ rootserverno → k.sosProcs pid = .pcb p → p.psType = .rootthread
  nobody : ∀ pid p, k.sosProcs pid = .pcb p → p.waitingOn = waitNobody
  reserved : ∀ pid, k.sosProcs pid ≠ .placeholder
  tidOffset : rootserverno < k.tidOffset ∧ k.tidOffset ≤ k.nextPid

/-- What `main` and the other initialisations have left when `pager_init` is called: the variables
of the pager are as the loader has set them. -/
structure Started (M : Set Nat) (k : Kernel) : Prop extends Threads M k where
  elffiles : ∀ f, k.elffiles f = none
  requestActive : k.requestActive = false
  pinnedFrame : k.pinnedFrame = 0
  mmu : ∀ pid n, k.mmu pid n = none
  overrun : k.overrun = false
  unbacked : k.unbacked = false

/-- `process_run_rootthread("pager", virtualPagerHandler, …)`; the frame of the stack is not
tested. -/
def runPagerThread : PagerM Unit := do
  let p ← processInit .rootthread
  match ← getNextPid with
  | none => throw (.assertion .processPrepareNil)
  | some pid =>
    processPrepare2 pid p none none none
    discard frameAlloc
    modify fun k => { k with virtualPager := pid }.updProcess pid
      ({ · with state := .alive, ipcAccept := .blocking })

/-- `pager_init`; a failed `frame_alloc` in `swapfile_init` is written through. -/
def pagerInit : PagerM Unit := do
  modify fun k => { k with
    allocLimit := frameAllocLimit, alloced := [], swapped := [], requests := [] }
  let f ← frameAlloc
  failIf (f = 0) .nullPointer
  modify fun k => { k with defaultSwapfile := .init swapfileFn }
  runPagerThread

/-- A process of the boot image: its regions come from the boot information. -/
def bootProcess (regions : List Region) : PagerM Unit := do
  let p ← processInit .process
  match ← getNextPid with
  | none => throw (.assertion .processPrepareNil)
  | some pid =>
    processPrepare2 pid { p with regions := regions } none none none
    processRun pid

/-- A region of the boot image: mapped directly only where there are no managed frames, and
without a swap file. -/
def BootRegion (M : Set Nat) (r : Region) : Prop :=
  r.elffile = none ∧ r.type = .other ∧
    (r.mapDirectly → ∀ a, findRegion a r → pageAlign a ∉ M)

/-- The states in which the processes of the boot image have been started and no message has been
handled yet. -/
inductive Booted (M : Set Nat) : Kernel → Prop
  | init {k₀ k} : Started M k₀ → pagerInit k₀ = .ok () k → Booted M k
  | process {k k' regions} : Booted M k → (∀ r ∈ regions, BootRegion M r) →
      bootProcess regions k = .ok () k' → Booted M k'

/-- The states reachable from start-up by steps that satisfy `C`. They are those of the code as long
as no frame is on the free list twice. -/
inductive Reachable (M : Set Nat) (C : Kernel → Event → Prop) : Kernel → Prop
  | boot {k} : Booted M k → Reachable M C k
  | step {k e k'} : Reachable M C k → C k e → Step k e k' → Reachable M C k'

end Sos
