import Sos.Machine

/-!
# Swap files

`swapfile.c`. A swap file is a path, the descriptor while it is open, and a chain of free slots
threaded through `slots`. The default swap file is made once by `pager_init`; the others stand for
executables, are made when the program is loaded and only ever read from.
-/

namespace Sos

open Hoare

variable {k : Kernel} {E : Fault → Kernel → Prop} {ptr : SwapfilePtr}

/-- A swap file as `swapfile_init` fills it in: slot `i` leads to slot `i + 1`. -/
def Swapfile.init (path : Path) : Swapfile where
  path := path
  fd := vfsNilFile
  head := 0
  usage := 0
  slots := fun i => if i + 1 < swapSize then i + 1 else addressNone

/-- `swapfile_init`; a failed `frame_alloc` is written through. -/
def swapfileInit (path : Path) : PagerM Nat := do
  let f ← frameAlloc
  failIf (f = 0) .nullPointer
  modify fun k => { k with elffiles := Function.update k.elffiles f (some (.init path)) }
  return f

/-- `swapfile_is_default`, by the path. -/
def Swapfile.isDefault (sf : Swapfile) : Bool := sf.path == swapfileFn

/-! ## Following the pointer -/

def Kernel.swapfile? (k : Kernel) : SwapfilePtr → Option Swapfile
  | .null => none
  | .default => some k.defaultSwapfile
  | .elf f => k.elffiles f

/-- The state with the descriptor of one swap file changed. -/
def Kernel.setSwapfileFd (k : Kernel) (ptr : SwapfilePtr) (fd : Int) : Kernel :=
  match ptr with
  | .null => k
  | .default => { k with defaultSwapfile := { k.defaultSwapfile with fd := fd } }
  | .elf f => { k with
      elffiles := Function.update k.elffiles f ((k.elffiles f).map ({ · with fd := fd })) }

/-- The code that follows the pointer to a freed swap file goes on with what is in the frame; the
model stops. -/
def derefSwapfile (ptr : SwapfilePtr) : PagerM Swapfile := do
  match (← get).swapfile? ptr with
  | none => throw .danglingSwapfile
  | some sf => pure sf

theorem wp_derefSwapfile {Q : Swapfile → Kernel → Prop} :
    Wp (derefSwapfile ptr) k Q E ↔
      (k.swapfile? ptr = none → E .danglingSwapfile k) ∧
      (∀ sf, k.swapfile? ptr = some sf → Q sf k) := by
  unfold derefSwapfile
  rw [wp_bind, wp_get]
  split
  · next h => simp [wp_throw, h]
  · next sf h => simp [wp_pure, h]

/-! ## Opening and closing -/

/-- `swapfile_open`: one reader, one writer, contents kept. -/
def swapfileOpen (ptr : SwapfilePtr) (rights : Nat) : PagerM Unit := do
  let sf ← derefSwapfile ptr
  assert (sf.fd == vfsNilFile) .swapfileOpenFd
  strncpyToBuffer (← get).virtualPager sf.path
  vfsCall (.open sf.path (rights ||| fmNotrunc) 1 1)

/-- `swapfile_close`. -/
def swapfileClose (ptr : SwapfilePtr) : PagerM Unit := do
  let sf ← derefSwapfile ptr
  assert (sf.fd != vfsNilFile) .swapfileCloseFd
  vfsCall (.close sf.fd)
  modify fun k => k.setSwapfileFd ptr vfsNilFile

/-- `swapfile_get_fd`. -/
def swapfileGetFd (ptr : SwapfilePtr) : PagerM Int := do
  let sf ← derefSwapfile ptr
  assert (sf.fd != vfsNilFile) .swapfileGetFd
  return sf.fd

/-- `swapfile_set_fd`. -/
def swapfileSetFd (ptr : SwapfilePtr) (fd : Int) : PagerM Unit := do
  let sf ← derefSwapfile ptr
  assert (sf.fd == vfsNilFile) .swapfileSetFdClosed
  assert (fd != vfsNilFile) .swapfileSetFdNil
  modify fun k => k.setSwapfileFd ptr fd

/-- `swapfile_free`. -/
def swapfileFree (f : Nat) : PagerM Unit := do
  modify fun k => { k with elffiles := Function.update k.elffiles f none }
  frameFree f

/-! ## Slots of the default swap file -/

/-- `swapslot_alloc(defaultSwapfile)`: the head of the chain, as an address in the file. -/
def swapslotAlloc : PagerM Nat := do
  let sf := (← get).defaultSwapfile
  assert (0 ≤ sf.usage ∧ sf.usage ≤ swapSize) .swapslotAllocUsage
  failIf (swapSize ≤ sf.head) .outOfBounds
  modify fun k => { k with
    defaultSwapfile := { sf with head := sf.slots sf.head, usage := sf.usage + 1 } }
  return sf.head * pageSize

/-- The swap file after `swapslot_free`. -/
def Swapfile.slotFree (sf : Swapfile) (slot : Nat) : Swapfile :=
  { sf with
    slots := Function.update sf.slots slot sf.head
    head := slot
    usage := sf.usage - 1 }

/-- `swapslot_free(defaultSwapfile, slot)`. -/
def swapslotFree (slot : Nat) : PagerM Unit := do
  let sf := (← get).defaultSwapfile
  assert (pageOffset slot = 0) .swapslotFreeAligned
  assert (0 < sf.usage) .swapslotFreeUsage
  failIf (swapSize ≤ slot / pageSize) .outOfBounds
  modify fun k => { k with defaultSwapfile := sf.slotFree (slot / pageSize) }

end Sos
