import Sos.Handler
import Sos.Vfs.Calls

/-!
# The copy buffers

Each thread has `COPY_BUFSIZ` bytes of `copyInOutBuffer`, through which system calls take and return
what does not fit into a message. This module follows every system call from its handler
(`syscall_handle`, `virtualPagerHandler`) to its completion as far as it touches the copy buffers.
What the rest of the system makes of the data it is given is left open: it is a `World`.

Addresses are relative to the array. What lies behind its end is other memory.
-/

namespace Sos

/-- `MAX_THREADS * COPY_BUFSIZ`. -/
def buffersEnd : Nat := 256 * copyBufsiz

/-- `sizeof(stat_t)` and `sizeof(process_t)`. The five words of a `stat_t` are followed by
two time stamps of eight bytes, which the EABI aligns to eight; an ABI that aligns them to four
makes it 36. -/
def statSize : Nat := 40
def processSize : Nat := 60

/-! ## System calls -/

/-- The calls that are given no pointer into the buffers. The private ones are refused, unless they
come from a thread of the root server, and then they answer another thread. -/
inductive PlainCall
  | close (fd : Int)
  | flush (fd : Int)
  | lseek (fd pos whence : Int)
  | dup (forig fdup : Int)
  | timeStamp
  | usleep (us : Nat)
  | myId
  | vpager
  | memloc (addr : Nat)
  | memuse
  | swapuse
  | physuse
  | processWait (w : Nat)
  | processDelete (w : Nat)
  | debugFlush
  | psOpen (mode readers writers pid : Nat)
  | psClose (fd : Int) (pid : Nat)
  | psFlush (fd : Int) (pid : Nat)
  | psDup (forig fdup : Int) (pid : Nat)
  | unhandled (label : Nat)
deriving DecidableEq, Repr

inductive SysCall
  | kernelPrint
  | open (mode readers writers : Nat)
  | read (fd : Int) (nbyte : Nat)
  | write (fd : Int) (nbyte : Nat)
  | getdirent (pos : Int) (nbyte : Nat)
  | stat
  | remove
  | copyin (src size : Nat) (append : Bool)
  | copyout (dst size : Nat) (append : Bool)
  | moremem (nb : Nat)
  | processStatus (n : Nat)
  | processCreate (fdout fderr fdin : Int)
  | plain (call : PlainCall)
deriving DecidableEq, Repr

/-- What the rest of the system answers to what it is given. -/
structure World where
  /-- `findNextFd` finds a descriptor. -/
  canOpenMore : Bool
  /-- `vfs_open` of a path that is short enough. -/
  openFile : Path → Nat → Nat → Nat → Int
  /-- The data read, or the status. -/
  readFile : Int → Nat → Except Int (List UInt8)
  writeFile : Int → List UInt8 → List Int
  /-- A file name. An answer to `nfs_readdir` has no more than `IO_MAX_BUFFER` bytes. -/
  dirent : Int → Except Int { name : List UInt8 // name.length ≤ ioMaxBuffer }
  /-- The `stat` of the vnode that `find_vnode` finds for a path. -/
  vnodeStat : Path → Option (Except Int (Nat → UInt8))
  /-- The answer to `nfs_lookup`. -/
  lookupStat : Path → Except Int (Nat → UInt8)
  vnodeRemove : Path → Option Int
  nfsRemove : Path → Int
  /-- `copyInOutData` of the caller. -/
  copyData : Nat
  /-- The memory of the caller, and how many bytes of it from the address on it may touch. -/
  userByte : Nat → UInt8
  accessible : Nat
  /-- The end of the heap. -/
  heapTop : Nat
  /-- The records `process_write_status` can write. -/
  statuses : List (Nat → UInt8)
  /-- What `SOS_PROCESS_CREATE` returns, and the path of the child's standard output. -/
  loads : Path → Int → Int → Int → Int
  stdout : Path
  /-- What the root server has put into the pager's buffer after the last call of the pager. -/
  fileData : Nat → UInt8
  fileBytes : Nat
  answer : PlainCall → Option (List Int)

/-- What is fixed before the call is made: the address of the array, the pager, whether a page has
to be swapped before a copy is through, and the pid `reserve_pid` finds. -/
structure Setting where
  base : Nat
  virtualPager : Pid
  swaps : Bool
  child : Option Pid

/-- What a call brings the caller, and the buffers it leaves: the words of the reply, if there is
one, and what has been copied to its memory. -/
structure Outcome where
  reply : Option (List Int)
  delivered : List UInt8 := []
  buffers : Nat → UInt8

/-! ## Strings -/

/-- `strlen`, with no bound but that of the address space. -/
def cStrlen (b : Nat → UInt8) (a : Nat) : Nat := strlen b wordLimit a

/-- The C string at `a`. -/
def stringAt (b : Nat → UInt8) (a : Nat) : Path := bytesAt b a (cStrlen b a)

/-! ## The root server -/

variable (w : World) (set : Setting) (t : Pid) (b : Nat → UInt8)

/-- `SOS_KERNEL_PRINT`. -/
def sosKernelPrint : Outcome :=
  { reply := none, buffers := blit b (pagerBuffer t + (copyBufsiz - 1)) 1 fun _ => 0 }

/-- `SOS_OPEN`. -/
def sosOpen (mode readers writers : Nat) : Outcome :=
  { buffers := b
    reply :=
      if !w.canOpenMore then some [vfsNomore]
      else if maxFileName ≤ cStrlen b (pagerBuffer t) then some [vfsPathinv]
      else some [w.openFile (stringAt b (pagerBuffer t)) mode readers writers] }

/-- `SOS_READ`: the data is copied when the file system has it. -/
def sosRead (fd : Int) (nbyte : Nat) : Outcome :=
  match w.readFile fd (min nbyte ioMaxBuffer) with
  | .error status => { reply := some [status], buffers := b }
  | .ok data =>
    let n := min data.length (min nbyte ioMaxBuffer)
    { reply := some [if n = 0 then vfsEof else n]
      buffers := blit b (pagerBuffer t) n fun i => data.getD i 0 }

/-- `SOS_WRITE`. -/
def sosWriteCall (fd : Int) (nbyte : Nat) : Outcome :=
  { reply := some (w.writeFile fd (bytesAt b (pagerBuffer t) (min nbyte ioMaxBuffer)))
    buffers := b }

/-- `SOS_GETDIRENT`: the name goes with a terminator. -/
def sosGetdirent (pos : Int) (nbyte : Nat) : Outcome :=
  if pos < 0 ∨ nbyte = 0 then { reply := some [vfsError], buffers := b }
  else
    match w.dirent pos with
    | .error status => { reply := some [status], buffers := b }
    | .ok name =>
      if name.val.length < nbyte then
        { reply := some [name.val.length]
          buffers := blit b (pagerBuffer t) (name.val.length + 1) fun i => name.val.getD i 0 }
      else { reply := some [vfsNomem], buffers := b }

/-- What `vfs_stat` finds for a path: the `stat` of an open file, or the answer to `nfs_lookup`. At
a name that is longer than a message the root server stops in `addtobuf`; that of an open file is
not. -/
def World.statOf (path : Path) : Option (Except Int (Nat → UInt8)) :=
  if nfsBufsiz < path.length then none else some ((w.vnodeStat path).getD (w.lookupStat path))

/-- Where `SOS_STAT` has the `stat_t` put: the next word after the path. -/
def statAddr : Nat :=
  wordAlign (set.base + (pagerBuffer t + cStrlen b (pagerBuffer t) + 1)) - set.base

/-- `SOS_STAT`, of an open file or of one the NFS server is asked for. -/
def sosStat : Outcome :=
  match w.statOf (stringAt b (pagerBuffer t)) with
  | none => { reply := none, buffers := b }
  | some (.error status) => { reply := some [status], buffers := b }
  | some (.ok st) => { reply := some [vfsOk], buffers := blit b (statAddr set t b) statSize st }

/-- `SOS_REMOVE`, which stops at a long name as `SOS_STAT` does. -/
def sosRemove : Outcome :=
  let path := stringAt b (pagerBuffer t)
  { reply :=
      if nfsBufsiz < path.length then none else some [(w.vnodeRemove path).getD (w.nfsRemove path)]
    buffers := b }

/-! ## The pager -/

/-- The pager makes calls of its own: the path goes to its buffer, and what the root server answers
comes back there. -/
def fileCalls (path : Path) : Nat → UInt8 :=
  blit (blit b (pagerBuffer set.virtualPager) maxFileName fun i => path.getD i 0)
    (pagerBuffer set.virtualPager) (min w.fileBytes copyBufsiz) w.fileData

/-- Size and offset of a copy, as `copyIn` and `copyOut` leave them in `copyInOutData`. -/
def copyRange (size : Nat) (append : Bool) : Nat × Nat :=
  if append then (min copyBufsiz (loHalf (loHalf w.copyData + size)), hiHalf w.copyData)
  else (min copyBufsiz (loHalf size), 0)

/-- How much of it can be copied. A caller that touches what it may not is killed. -/
def copied (size : Nat) (append : Bool) : Nat :=
  min ((copyRange w size append).1 - (copyRange w size append).2) w.accessible

/-- The answer, if the copy gets to its end. -/
def copyReply (size : Nat) (append : Bool) : Option (List Int) :=
  if (copyRange w size append).2 + copied w size append = (copyRange w size append).1 then some []
  else none

/-- `SOS_COPYIN`. -/
def sosCopyin (src size : Nat) (append : Bool) : Outcome :=
  let b := if set.swaps then fileCalls w set b swapfileFn else b
  { reply := copyReply w size append
    buffers := blit b (pagerBuffer t + (copyRange w size append).2) (copied w size append)
      fun i => w.userByte (src + i) }

/-- `SOS_COPYOUT`. -/
def sosCopyout (size : Nat) (append : Bool) : Outcome :=
  { reply := copyReply w size append
    delivered := bytesAt b (pagerBuffer t + (copyRange w size append).2) (copied w size append)
    buffers := if set.swaps then fileCalls w set b swapfileFn else b }

/-- `SOS_MOREMEM`. -/
def sosMoremem : Outcome :=
  { reply := some [1], buffers := blit b (pagerBuffer t) 4 (wordByte (w.heapTop % wordLimit)) }

/-- `process_write_status`; `n` is compared as an unsigned number. -/
def sosProcessStatus (n : Nat) : Outcome :=
  let count := min w.statuses.length (min n (copyBufsiz / processSize))
  { reply := some [count]
    buffers := blit b (pagerBuffer t) (count * processSize) fun i =>
      (w.statuses.getD (i / processSize) fun _ => 0) (i % processSize) }

/-- `SOS_PROCESS_CREATE`: the pager looks the file up and reads its header, and if the process can
be made, its standard output is opened through its own buffer. -/
def sosProcessCreate (fdout fderr fdin : Int) : Outcome :=
  match set.child with
  | none => { reply := some [-1], buffers := b }
  | some child =>
    let path := (bytesAt b (pagerBuffer t) maxFileName).takeWhile (· ≠ 0)
    let rval := w.loads path fdout fderr fdin
    let b := fileCalls w set b path
    { reply := some [rval]
      buffers :=
        if 0 ≤ rval then blit b (pagerBuffer child) maxFileName fun i => w.stdout.getD i 0 else b }

/-! ## All calls -/

/-- A call by `t`, from its handler to its completion. -/
def runCall : SysCall → Outcome
  | .kernelPrint => sosKernelPrint t b
  | .open mode readers writers => sosOpen w t b mode readers writers
  | .read fd nbyte => sosRead w t b fd nbyte
  | .write fd nbyte => sosWriteCall w t b fd nbyte
  | .getdirent pos nbyte => sosGetdirent w t b pos nbyte
  | .stat => sosStat w set t b
  | .remove => sosRemove w t b
  | .copyin src size append => sosCopyin w set t b src size append
  | .copyout _ size append => sosCopyout w set t b size append
  | .moremem _ => sosMoremem w t b
  | .processStatus n => sosProcessStatus w t b n
  | .processCreate fdout fderr fdin => sosProcessCreate w set t b fdout fderr fdin
  | .plain call => { reply := w.answer call, buffers := b }

/-! ## The user library -/

/-- What the calls of a user thread go by: its memory, the buffers, and its word of
`copyInOutData`. -/
structure Client where
  memory : Nat → UInt8
  buffers : Nat → UInt8
  copyData : Nat

/-- The world as it is when the thread makes a call. -/
def World.seenBy (w : World) (s : Client) : World :=
  { w with copyData := s.copyData, userByte := s.memory }

/-- `copyInOutData` of the caller when a copy has got as far as it gets. -/
def copyDataAfter (w : World) (size : Nat) (append : Bool) : Nat :=
  (copyRange w size append).1 + ((copyRange w size append).2 + copied w size append) * 65536

/-- `copyin`. -/
def Client.copyin (w : World) (s : Client) (data size : Nat) (append : Bool) : Client :=
  let w := w.seenBy s
  { s with
    buffers := (runCall w set t s.buffers (.copyin data size append)).buffers
    copyData := copyDataAfter w size append }

/-- `copyout`. -/
def Client.copyout (w : World) (s : Client) (data size : Nat) (append : Bool) : Client :=
  let w := w.seenBy s
  let out := runCall w set t s.buffers (.copyout data size append)
  { memory := blit s.memory data out.delivered.length fun i => out.delivered.getD i 0
    buffers := out.buffers
    copyData := copyDataAfter w size append }

/-- The world at each of the calls `stat` makes. -/
structure StatWorlds where
  path : World
  stat : World
  padding : World
  record : World

/-- The first part of `stat`: the path is copied in. -/
def Client.statPath (ws : StatWorlds) (s : Client) (path : Nat) : Client :=
  s.copyin set t ws.path path (cStrlen s.memory path + 1) false

/-- The call, and the padding that is copied out if the path does not end on a word. -/
def Client.statCall (ws : StatWorlds) (s : Client) (len buf : Nat) : Option (List Int) × Client :=
  let out := runCall (ws.stat.seenBy s) set t s.buffers .stat
  let s := { s with buffers := out.buffers }
  let offset := (len + 1) % 4
  (out.reply, if 0 < offset then s.copyout set t ws.padding buf (4 - offset) true else s)

/-- `stat`: what stands behind the path and the padding is copied out. -/
def Client.stat (ws : StatWorlds) (s : Client) (path buf : Nat) : Option (List Int) × Client :=
  let (rval, s) := (s.statPath set t ws path).statCall set t ws (cStrlen s.memory path) buf
  (rval, s.copyout set t ws.record buf statSize true)

/-! ## The model of the pager

The calls above do to the buffers what it does. -/

section Models

open Hoare

variable {w set t}

theorem sosMoremem_of_moremem {k : Kernel} {p : Process} {heap : Region} {nb : Nat}
    (hp : k.sosProcs t = .pcb p) (hheap : p.regions.find? (·.type = .heap) = some heap)
    (hw : w.heapTop = heap.base + heap.size) :
    Wp (moremem t nb) k
      (fun _ k' => k'.copyInOutBuffer = (sosMoremem w t k.copyInOutBuffer).buffers)
      fun _ _ => False := by
  refine (moremem_spec hp hheap).imp fun _ k' h => ?_
  rw [h.1, sosMoremem, hw]

/-- What the pager's buffer holds when a call has been answered. -/
theorem fileCalls_of_received {k k' : Kernel} {path : Path}
    (hvp : set.virtualPager = k.virtualPager)
    (hn : copyBufsiz ≤ w.fileBytes) (hk : strncpyToBuffer k.virtualPager path k = .ok () k') :
    (k'.received w.fileData).copyInOutBuffer = fileCalls w set k.copyInOutBuffer path := by
  obtain rfl : _ = k' := (EStateM.Result.ok.inj hk).2
  unfold fileCalls
  rw [Nat.min_eq_right hn, hvp]
  rfl

end Models

end Sos
