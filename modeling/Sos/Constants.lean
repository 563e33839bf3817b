import Mathlib.Algebra.GroupWithZero.Nat
import Mathlib.Logic.Function.Basic

/-!
# Constants and machine words

The constants of `constants.h`, `globals.h`, `sos.h` and of the head of `pager.c` and
`swapfile.c`. An `L4_Word_t` is kept as a `Nat`; where the code can overflow, the arithmetic is
done modulo `wordLimit`. Physical and virtual addresses are words, a page is named by its number
(`Page`), and a frame by its address.
-/

namespace Sos

/-- One more than the largest `L4_Word_t`. -/
def wordLimit : Nat := 4294967296

def pageSize : Nat := 4096
def pageWords : Nat := 1024
def oneMeg : Nat := 1048576

def addressAll : Nat := wordLimit - 1
def addressNone : Nat := wordLimit - 2

def copyBufsiz : Nat := 16384
def maxFileName : Nat := 32
def processMaxFiles : Nat := 16
def ioMaxBuffer : Nat := 1100
def nfsBufsiz : Nat := 1280

/-- The longest name that fits into a message of the NFS library: the RPC header takes 68 bytes, the
handle of the directory 32 and the length 4. -/
def nfsMaxName : Nat := nfsBufsiz - 68 - 32 - 4

def frameAllocLimit : Nat := 1024

/-- `(PAGESIZE - sizeof(SwapfileData)) / sizeof(L4_Word_t)`. -/
def swapSize : Nat := (pageSize - 44) / 4

def vfsNilFile : Int := -1
def vfsEof : Int := -1
def vfsNovnode : Int := -996
def vfsOpen : Int := -988
def nilPid : Int := -1
def waitAnybody : Int := -1
def waitNobody : Int := -2

def fmRead : Nat := 4
def fmWrite : Nat := 2
def fmExec : Nat := 1
def fmNotrunc : Nat := 8
def fmUnlimitedRw : Nat := wordLimit - 1

def regionRead : Nat := 4
def regionWrite : Nat := 2

/-- `MAX_ADDRSPACES` process slots; pids, thread numbers and space numbers coincide. -/
abbrev Pid := Fin 256

/-- Number of a 4 KiB page of a 32-bit address space. -/
abbrev Page := Fin 1048576

-- The literals of `Pid`, of the access bits and of the indices into `files`.
instance neZero256 : NeZero 256 := ⟨by decide⟩
instance neZero8 : NeZero 8 := ⟨by decide⟩
instance neZero16 : NeZero 16 := ⟨by decide⟩

/-- `L4_rootserverno`. -/
def rootserverno : Pid := 0

/-! ## Pages and alignment -/

/-- `addr & PAGEALIGN`. -/
def pageAlign (addr : Nat) : Nat := addr / pageSize * pageSize

/-- `addr & ~PAGEALIGN`. -/
def pageOffset (addr : Nat) : Nat := addr % pageSize

/-- The page an address lies in. -/
def pageNo (addr : Nat) : Page :=
  ⟨addr % wordLimit / pageSize, by unfold wordLimit pageSize; omega⟩

theorem pageAlign_le (a : Nat) : pageAlign a ≤ a := Nat.div_mul_le_self a pageSize

@[simp] theorem pageOffset_pageAlign (a : Nat) : pageOffset (pageAlign a) = 0 := by
  unfold pageOffset pageAlign
  exact Nat.mul_mod_left _ _

@[simp] theorem pageNo_pageAlign (a : Nat) : pageNo (pageAlign a) = pageNo a := by
  apply Fin.ext
  show pageAlign a % wordLimit / pageSize = a % wordLimit / pageSize
  unfold pageAlign wordLimit pageSize
  omega

/-! ## Paths -/

/-- A C string of at most `MAX_FILE_NAME` bytes, without its terminator. -/
abbrev Path := List UInt8

/-- `SWAPFILE_FN`: ".swap". -/
def swapfileFn : Path := [46, 115, 119, 97, 112]

/-- `STDOUT_FN`: "console". -/
def stdoutFn : Path := [99, 111, 110, 115, 111, 108, 101]

end Sos
