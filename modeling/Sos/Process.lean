import Sos.Swapfile
import Mathlib.Data.List.FinRange

/-!
# Processes

The process table and the parts of `process.c` and `region.c` the pager uses: looking a PCB up,
reserving a pid, registering and starting a new process, killing one, and waking the processes that
wait for it.

A `Process *` obtained from the table is represented by the pid it was looked up with, and every
use of it goes through the table again (`derefProcess`). A use through NULL or after the PCB has
left the table is then a `nullProcess` fault, one through `PS_PLACEHOLDER` a `placeholder` fault.
-/

namespace Sos

open Hoare

variable {k : Kernel} {E : Fault → Kernel → Prop} {pid : Pid}

/-! ## The process table -/

/-- Follow the `Process *` of `process_lookup(pid)`. -/
def derefProcess (pid : Pid) : PagerM Process := do
  match (← get).sosProcs pid with
  | .null => throw .nullProcess
  | .placeholder => throw .placeholder
  | .pcb p => pure p

theorem wp_derefProcess {Q : Process → Kernel → Prop} :
    Wp (derefProcess pid) k Q E ↔
      (k.sosProcs pid = .null → E .nullProcess k) ∧
      (k.sosProcs pid = .placeholder → E .placeholder k) ∧
      (∀ p, k.sosProcs pid = .pcb p → Q p k) := by
  unfold derefProcess
  rw [wp_bind, wp_get]
  split <;> next h => simp [wp_throw, wp_pure, h]

/-- The state with one slot of the process table changed. -/
def Kernel.setSlot (k : Kernel) (pid : Pid) (s : Slot) : Kernel :=
  { k with sosProcs := Function.update k.sosProcs pid s }

@[simp] theorem setSlot_self {s : Slot} : (k.setSlot pid s).sosProcs pid = s :=
  Function.update_self ..

theorem setSlot_of_ne {s : Slot} {pid' : Pid} (h : pid' ≠ pid) :
    (k.setSlot pid s).sosProcs pid' = k.sosProcs pid' :=
  Function.update_of_ne h ..

/-- The state with the PCB of `pid`, if there is one, changed by `f`. -/
def Kernel.updProcess (k : Kernel) (pid : Pid) (f : Process → Process) : Kernel :=
  match k.sosProcs pid with
  | .pcb p => k.setSlot pid (.pcb (f p))
  | _ => k

theorem updProcess_of_pcb {p : Process} {f : Process → Process} (h : k.sosProcs pid = .pcb p) :
    k.updProcess pid f = k.setSlot pid (.pcb (f p)) := by
  unfold Kernel.updProcess
  rw [h]

theorem updProcess_of_ne {pid' : Pid} {f : Process → Process} (h : pid' ≠ pid) :
    (k.updProcess pid f).sosProcs pid' = k.sosProcs pid' := by
  unfold Kernel.updProcess
  split
  · exact setSlot_of_ne h
  · rfl

theorem updProcess_rest {g : Process → Process} :
    k.updProcess pid g = { k with sosProcs := (k.updProcess pid g).sosProcs } := by
  unfold Kernel.updProcess
  split <;> rfl

/-- `process_get_tid(process_lookup(pid))`; the nil thread has the number of the root server. -/
def processGetTid (pid : Pid) : PagerM Pid := do
  match (← get).sosProcs pid with
  | .null => return rootserverno
  | .placeholder => throw .placeholder
  | .pcb _ => return pid

/-- `processExists`. -/
def processExists (pid : Pid) : PagerM Bool := do
  let k ← get
  assert (k.tidOffset ≤ pid) .processExistsRange
  return (k.sosProcs pid).pcb?.isSome

/-! ## Pids -/

/-- The loop of `getNextPid`: the first free slot from `next` on, wrapping round to `tidOffset`;
`next` itself once the search is back at `oldPid`. -/
def getNextPidLoop (k : Kernel) (oldPid : Pid) : Nat → Pid → Bool → Pid
  | 0, next, _ => next
  | n + 1, next, firstIteration =>
    match k.sosProcs next with
    | .null => next
    | _ =>
      if !firstIteration && oldPid == next then next
      else
        let next' := if h : next.val + 1 < 256 then ⟨next.val + 1, h⟩ else k.tidOffset
        getNextPidLoop k oldPid n next' false

/-- `getNextPid`; `none` is `NIL_PID`. -/
def getNextPid : PagerM (Option Pid) := do
  let k ← get
  let next := getNextPidLoop k k.nextPid 257 k.nextPid true
  set { k with nextPid := next }
  match k.sosProcs next with
  | .null => return some next
  | _ => return none

/-- `reserve_pid`. -/
def reservePid : PagerM (Option Pid) := do
  match ← getNextPid with
  | none => return none
  | some pid =>
    assert (!(← processExists pid)) .reservePidExists
    modify fun k => k.setSlot pid .placeholder
    return some pid

/-! ## Making a process -/

/-- `pagetable_init`; a failed `frame_alloc` is written through. -/
def pagetableInit : PagerM Pagetable := do
  let f ← frameAlloc
  failIf (f = 0) .nullPointer
  return { frame := f, pages2 := fun _ => none }

/-- `process_init` after the first one. -/
def processInit (psType : ProcessType) : PagerM Process := do
  let pagetable ← pagetableInit
  let inc := (← get).incs
  modify fun k => { k with incs := inc + 1 }
  return { psType, pagetable, inc }

/-- A word read as a C `int`. -/
def toInt32 (w : Nat) : Int :=
  if w % wordLimit < wordLimit / 2 then w % wordLimit else (w % wordLimit : Int) - wordLimit

/-- `list_reduce(p->regions, regionFindHighest, 0)`. -/
def regionsHighest (regions : List Region) : Int :=
  regions.foldl (fun top r => max top (toInt32 (r.base + r.size))) 0

/-- Top of the stack region: half way up the address space. -/
def stackTop : Nat := pageAlign ((wordLimit - 1) / 2)

/-- `addBuiltinRegions`: an empty heap above the other regions, and the stack. -/
def addBuiltinRegions (p : Process) : Process :=
  let base := regionsHighest p.regions
  if base = 0 then p
  else
    let heap : Region :=
      { type := .heap, base := pageAlign (base.toNat + (pageSize - 1)), size := 0
        rights := regionRead ||| regionWrite }
    let stack : Region :=
      { type := .stack, base := stackTop - oneMeg, size := oneMeg
        rights := regionRead ||| regionWrite }
    { p with regions := p.regions ++ [heap, stack] }

/-- `openStdFd`. -/
def openStdFd (pid : Pid) (file : Option Path) (stdfile : Path) (mode : Nat) : PagerM Unit := do
  let path := file.getD stdfile
  strncpyToBuffer pid path
  vfsCall (.psOpen pid path mode)

/-- The part of `process_prepare2` that sets up the standard descriptors. `strcmp` is reached with
a NULL argument when only one of the two is redirected. -/
def openStdFds (pid : Pid) (fdout fderr : Option Path) : PagerM Unit := do
  openStdFd pid fdout stdoutFn fmWrite
  match fdout, fderr with
  | none, none => vfsCall (.psDup pid)
  | some out, some err =>
    if out = err then vfsCall (.psDup pid) else openStdFd pid fderr stdoutFn fmWrite
  | _, _ => throw .nullPointer

/-- `process_prepare2`: enter the PCB in the table and open its standard files. -/
def processPrepare2 (pid : Pid) (p : Process) (fdout fderr fdin : Option Path) : PagerM Unit := do
  assert (!(← processExists pid)) .processPrepareExists
  if p.psType = .rootthread then
    modify fun k => k.setSlot pid (.pcb p)
  else
    let p := { addBuiltinRegions p with fin := fdin }
    modify fun k => k.setSlot pid (.pcb p)
    openStdFds pid fdout fderr

/-- `process_run`: L4 makes an empty address space for the process and starts its thread. -/
def processRun (pid : Pid) : PagerM Unit :=
  modify fun k =>
    { k with mmu := Function.update k.mmu pid (fun _ => none) }.updProcess pid
      ({ · with state := .alive })

/-! ## Ending a process -/

/-- `process_kill`: remove thread and address space, and make the pid the next one if it is lower.
Only user processes can be killed. -/
def processKill (pid : Pid) (p : Process) : PagerM Bool := do
  let k ← get
  if k.tidOffset < pid ∧ p.psType ≠ .rootthread then
    set { k with
      mmu := Function.update k.mmu pid (fun _ => none)
      nextPid := if pid < k.nextPid then pid else k.nextPid }
    return true
  else
    return false

/-- `vfs_isopen` for a descriptor below `PROCESS_MAX_FILES`. -/
def Process.isOpen (p : Process) (fd : Fin 16) : Bool :=
  let file := p.fds (fd.castLE (by decide))
  if h : 0 ≤ file ∧ file < 16 then
    (p.files ⟨file.toNat, by omega⟩).vnode.isSome
  else false

/-- `process_close_files`: ask the root server to flush and close every open descriptor. -/
def processCloseFiles (pid : Pid) (p : Process) : PagerM Unit :=
  modify fun k => { k with
    calls := k.calls ++ ((List.finRange 16).filter p.isOpen).flatMap fun fd =>
      [.psFlush pid fd, .psClose pid fd] }

/-- `process_remove`. -/
def processRemove (pid : Pid) : PagerM Unit :=
  modify fun k => k.setSlot pid .null

/-- One round of the loop of `wakeAll`. -/
def wakeOne (wakeFor : Int) (wakeFrom i : Pid) : PagerM Unit := do
  match (← get).sosProcs i with
  | .pcb p =>
    if p.waitingOn = wakeFor then
      modify fun k => k.updProcess i ({ · with waitingOn := waitNobody, state := .alive })
      syscallReply i wakeFrom.val
    else pure ()
  | _ => pure ()

/-- `wakeAll`. -/
def wakeAll (wakeFor : Int) (wakeFrom : Pid) : PagerM Unit := do
  let k ← get
  ((List.finRange 256).filter (k.tidOffset ≤ ·)).forM (wakeOne wakeFor wakeFrom)

/-- `process_wake_all`. -/
def processWakeAll (pid : Pid) : PagerM Unit := do
  wakeAll pid.val pid
  wakeAll waitAnybody pid

/-! ## Regions -/

/-- `findRegion`; the end of the region is computed in 32 bits. -/
def findRegion (addr : Nat) (r : Region) : Bool :=
  r.base ≤ addr ∧ addr < (r.base + r.size) % wordLimit

/-- `findPaRegion`. The size takes no part in it: it stands before a comma operator. -/
def findPaRegion (addr : Nat) (r : Region) : Bool :=
  pageAlign r.base ≤ addr

/-- `region_free`: gives the frame of the ELF swap file back, unless the path is that of the
default swap file. -/
def regionFree (r : Region) : PagerM Unit := do
  match r.elffile with
  | none => pure ()
  | some f =>
    let sf ← derefSwapfile (.elf f)
    if sf.isDefault then pure () else swapfileFree f

end Sos
