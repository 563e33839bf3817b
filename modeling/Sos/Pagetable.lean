import Sos.Process

/-!
# Page tables and user frames

The first part of `pager.c`: the two level page table, mapping and unmapping, the second-chance
choice of a victim, allocating frames to user pages, and the deletion of a process.

`pagetableLookup` makes the second level on demand, so even a read may take a frame. The entry it
returns a pointer to is read and written here by process and page: `lookupEntry` follows the
process pointer and looks the entry up, `setEntry` writes to it.
-/

namespace Sos

open Hoare

variable {k : Kernel} {pid : Pid} {addr : Nat}

/-! ## The two level table -/

/-- Index in the first level. -/
def offset1 (n : Page) : Fin 1024 := ⟨n.val / 1024, by omega⟩

/-- Index in the second level. -/
def offset2 (n : Page) : Fin 1024 := ⟨n.val % 1024, by omega⟩

/-- The entry of a page; 0 where there is no second level. -/
def Pagetable.entry (pt : Pagetable) (n : Page) : Pte :=
  match pt.pages2 (offset1 n) with
  | none => {}
  | some t => t.pages (offset2 n)

/-- Write the entry of a page whose second level is there. -/
def Pagetable.setEntry (pt : Pagetable) (n : Page) (e : Pte) : Pagetable :=
  match pt.pages2 (offset1 n) with
  | none => pt
  | some t => { pt with
      pages2 := Function.update pt.pages2 (offset1 n)
        (some { t with pages := Function.update t.pages (offset2 n) e }) }

/-- `pagetableLookup`: the table with the second level for `addr` in place. A failed
`frame_alloc` is written through. -/
def pagetableLookup (pt : Pagetable) (addr : Nat) : PagerM Pagetable := do
  match pt.pages2 (offset1 (pageNo addr)) with
  | some _ => return pt
  | none =>
    let f ← frameAlloc
    failIf (f = 0) .nullPointer
    return { pt with
      pages2 := Function.update pt.pages2 (offset1 (pageNo addr))
        (some { frame := f, pages := fun _ => {} }) }

/-- `pagetableLookup` on the page table of a process in the table, and the entry it leads to. -/
def lookupEntry (pid : Pid) (addr : Nat) : PagerM Pte := do
  let p ← derefProcess pid
  let pt ← pagetableLookup p.pagetable addr
  modify fun k => k.updProcess pid ({ · with pagetable := pt })
  return pt.entry (pageNo addr)

/-- `*entry = e`. -/
def setEntry (pid : Pid) (addr : Nat) (e : Pte) : PagerM Unit :=
  modify fun k => k.updProcess pid fun p =>
    { p with pagetable := p.pagetable.setEntry (pageNo addr) e }

/-- The frames of a page table in the order `pagetableFree` returns them. -/
def Pagetable.frames (pt : Pagetable) : List Nat :=
  (List.finRange 1024).filterMap (fun i => (pt.pages2 i).map Pagetable2.frame) ++ [pt.frame]

/-- `pagetableFree`. -/
def pagetableFree (pt : Pagetable) : PagerM Unit :=
  pt.frames.forM frameFree

/-! ## Mapping -/

/-- `mapPage`. -/
def mapPage (pid : Pid) (virt phys : Nat) : PagerM Unit := do
  assert (pageOffset virt = 0 ∧ pageOffset phys = 0) .mapPageAligned
  modify fun k => { k with
    mmu := Function.update k.mmu pid (Function.update (k.mmu pid) (pageNo virt) (some phys)) }

/-- `unmapPage`. -/
def unmapPage (pid : Pid) (virt : Nat) : PagerM Unit := do
  assert (pageOffset virt = 0) .unmapPageAligned
  modify fun k => { k with
    mmu := Function.update k.mmu pid (Function.update (k.mmu pid) (pageNo virt) none) }

/-- `prepareDataIn` and `prepareDataOut`: apart from the caches they only look the entry up. -/
def prepareData (pid : Pid) (vaddr : Nat) : PagerM Unit := do
  assert (pageOffset vaddr = 0) .prepareDataAligned
  discard <| lookupEntry pid vaddr

/-! ## Frames of user pages -/

/-- `pagerFrameFree`. The owner is `none` when it is being deleted: its `size` goes with it. -/
def pagerFrameFree (owner : Option Pid) (frame : Nat) : PagerM Unit := do
  assert (pageOffset frame = 0) .pagerFrameFreeAligned
  frameFree frame
  modify fun k => { k with allocLimit := k.allocLimit + 1 }
  match owner with
  | none => pure ()
  | some pid =>
    match (← get).sosProcs pid with
    | .null => pure ()
    | .placeholder => throw .placeholder
    | .pcb _ => modify fun k => k.updProcess pid fun p => { p with size := p.size - 1 }

/-- `pagerFrameAlloc`. The pair goes on `alloced` and the limit down before the frame is looked
at, so also when there was none. -/
def pagerFrameAlloc (pid : Pid) (page : Nat) : PagerM Nat := do
  let k ← get
  assert (0 ≤ k.allocLimit) .pagerFrameAllocLimit
  if k.allocLimit = 0 then
    return 0
  else
    let frame ← frameAlloc
    modify fun k => { k with
      alloced := k.alloced ++ [(pid, page)]
      allocLimit := k.allocLimit - 1
      unbacked := k.unbacked || frame == 0 }.updProcess pid fun p => { p with size := p.size + 1 }
    return frame

/-- The second-chance loop: a pair whose page has been referenced goes to the back with its
reference bit cleared and its page unmapped. -/
def deleteAllocListLoop : Nat → PagerM (Pid × Nat)
  | 0 => throw .outOfFuel
  | n + 1 => do
    match (← get).alloced with
    | [] => throw (.assertion .listUnshiftNull)
    | found :: rest =>
      modify fun k => { k with alloced := rest }
      assert (match (← get).sosProcs found.1 with | .null => false | _ => true)
        .deleteAllocListProcess
      let entry ← lookupEntry found.1 found.2
      if entry.ref = false then
        return found
      else
        setEntry found.1 found.2 { entry with ref := false }
        unmapPage found.1 found.2
        modify fun k => { k with alloced := k.alloced ++ [found] }
        deleteAllocListLoop n

/-- `deleteAllocList`. One round more than there are pairs is enough: after a full turn the
reference bits are clear. -/
def deleteAllocList : PagerM (Pid × Nat) := do
  let k ← get
  assert (!k.alloced.isEmpty) .deleteAllocListEmpty
  deleteAllocListLoop (k.alloced.length + 1)

/-! ## Slots of user pages -/

/-- `pagerSwapslotAlloc`; `swapslot_alloc` never returns `ADDRESS_NONE`. -/
def pagerSwapslotAlloc (pid : Pid) : PagerM Nat := do
  let diskAddr ← swapslotAlloc
  if diskAddr = addressNone then
    return addressNone
  else
    modify fun k => { k with swapped := k.swapped ++ [(pid, diskAddr)] }
    return diskAddr

/-- `pagerSwapslotFree`, the predicate `list_delete` runs over `swapped`: it frees the slots of the
pairs it selects. `ADDRESS_ALL` is looked for in the list, not in the argument. -/
def pagerSwapslotFree (args curr : Pid × Nat) : PagerM Bool := do
  if curr.1 = args.1 ∧ (curr.2 = args.2 ∨ curr.2 = addressAll) then
    swapslotFree curr.2
    return true
  else
    return false

/-- `list_delete`: the items for which the predicate answers no. -/
def listDelete {α : Type} (f : α → PagerM Bool) : List α → PagerM (List α)
  | [] => return []
  | x :: xs => do
    if ← f x then
      listDelete f xs
    else
      return x :: (← listDelete f xs)

/-- `list_delete(swapped, pagerSwapslotFree, &args)`. -/
def swappedDelete (args : Pid × Nat) : PagerM Unit := do
  let rest ← listDelete (pagerSwapslotFree args) (← get).swapped
  modify fun k => { k with swapped := rest }

/-! ## Deleting a process -/

/-- `list_delete(alloced, framesFree, p)` for a process that is no longer in the table: its frames
are freed and its pairs dropped. The page table is passed along, as looking an entry up may extend
it. -/
def framesFree (pid : Pid) : Pagetable → List (Pid × Nat) → PagerM (Pagetable × List (Pid × Nat))
  | pt, [] => return (pt, [])
  | pt, curr :: rest => do
    if curr.1 = pid then
      let pt ← pagetableLookup pt curr.2
      pagerFrameFree none (pt.entry (pageNo curr.2)).addr
      framesFree pid pt rest
    else
      let (pt, kept) ← framesFree pid pt rest
      return (pt, curr :: kept)

/-- `processDelete`. -/
def processDelete (pid : Pid) : PagerM Int := do
  match (← get).sosProcs pid with
  | .null => return 1
  | .placeholder => throw .placeholder
  | .pcb p =>
    if ← processKill pid p then
      modify fun k => k.updProcess pid ({ · with state := .zombie })
      processCloseFiles pid p
      processRemove pid
      let (pt, kept) ← framesFree pid p.pagetable (← get).alloced
      modify fun k => { k with alloced := kept }
      swappedDelete (pid, addressAll)
      pagetableFree pt
      p.regions.forM regionFree
      processWakeAll pid
      return 0
    else
      return -1

end Sos
