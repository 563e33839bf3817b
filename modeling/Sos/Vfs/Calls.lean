import Sos.Vfs.Nfsfs

/-!
# The console and the system calls on files

`console.c`, and the entry points of `vfs.c` for the system calls.
-/

namespace Sos.Vfs

/-! ## The console -/

/-- Change the state of `console.c`. -/
def modifyConsole (f : Console → Console) : VfsM Unit :=
  modify fun s => { s with console := f s.console }

/-- `console_close`. -/
def consoleClose (pid : Pid) (a : Nat) : VfsM Unit := vfsCloseDone pid a vfsNotimp

/-- `console_read`. -/
def consoleRead (pid : Pid) (a : Nat) (file : Int) (nbyte : Nat) : VfsM Unit := do
  let s ← get
  if (s.files.vnodes a).extra = .null then vfsReadDone pid file 0 vfsCorvnode
  else if s.console.reader.isSome then vfsReadDone pid file 0 vfsReadfull
  else modifyConsole fun c => { c with reader := some ⟨pid, file, nbyte, 0, s.caller⟩ }

/-- `network_sendstring` of what is in the buffer. -/
def sendstring (used : Nat) (serialSend : Int) : Int := if used = 0 then 0 else serialSend

/-- The loop of `console_write`: what is still to come, how full the buffer is, the status, and
what the serial library will return. The last character of the data is a newline if `newline` is
set. -/
def consoleFill (nbyte : Nat) (newline : Bool) :
    Nat → Nat → Nat → Int → List Int → Int × Nat
  | 0, _, used, status, _ => (status, used)
  | n + 1, left, used, status, sends =>
    if left = 0 then (status, used)
    else
      let taken := min (consoleBufSiz - used) left
      let flush := consoleBufSiz ≤ used + taken ∨ newline
      let status := if flush then sendstring (used + taken) (sends.headD 0) else status
      consoleFill nbyte newline n (left - taken) (if flush then 0 else used + taken)
        (if status < 0 then vfsError else nbyte) (if flush then sends.tail else sends)

/-- `console_write`. -/
def consoleWrite (pid : Pid) (a : Nat) (file : Int) (nbyte : Nat) (newline : Bool)
    (sends : List Int) : VfsM Unit := do
  let s ← get
  if (s.files.vnodes a).extra = .null then vfsWriteDone pid file 0 vfsCorvnode
  else
    let (status, used) := consoleFill nbyte newline (nbyte + 1) nbyte s.console.bufUsed nbyte sends
    modifyConsole fun c => { c with bufUsed := used }
    vfsWriteDone pid file 0 status

/-- `console_flush`. -/
def consoleFlush (pid : Pid) (a : Nat) (sends : List Int) : VfsM Unit := do
  let s ← get
  if (s.files.vnodes a).extra = .null then pure ()
  else
    modifyConsole fun c => { c with bufUsed := 0 }
    syscallReply pid (if 0 < sendstring s.console.bufUsed (sends.headD 0) then vfsOk else vfsEof)

/-- `console_stat`. -/
def consoleStat (pid : Pid) (a : Nat) : VfsM Unit := do
  if ((← get).files.vnodes a).extra = .null then syscallReply pid vfsCorvnode
  else syscallReply pid vfsOk

/-- `serial_read_callback`. -/
def serialReadCallback (newline : Bool) : VfsM Unit := do
  match (← get).console.reader with
  | none => pure ()
  | some rq =>
    let rbyte := if rq.rbyte < rq.nbyte then rq.rbyte + 1 else rq.rbyte
    if newline ∨ rq.nbyte ≤ rbyte then
      modify fun s => { s with caller := rq.caller }
      vfsReadDone rq.pid rq.file 0 rbyte
      modifyConsole fun c => { c with reader := none }
    else
      modifyConsole fun c => { c with reader := some { rq with rbyte := rbyte } }

/-! ## Opening -/

/-- The checks at the beginning of `vfs_open`: the path to open, or the reply. An open of the
console is redirected to the file that stands for the standard input. -/
def openPath (p : Process) (path : Path) (mode : Nat) : Except Int Path :=
  if !p.canOpenMore then .error vfsNomore
  else if maxFileName ≤ path.length then .error vfsPathinv
  else if !reads mode && !writes mode then .error vfsBadmode
  else if path = stdoutFn then .ok (p.fin.getD path)
  else .ok path

/-- `vfs_open`; `block` is what `malloc` returns if it is called. Locks that the mode itself exceeds
are answered with an error, and the open goes on. -/
def vfsOpen (pid : Pid) (path : Path) (mode readers writers block : Nat) : VfsM Unit := do
  match (← get).files.sosProcs pid with
  | .null => pure ()
  | .placeholder => throw .placeholder
  | .pcb p =>
    match openPath p path mode with
    | .error rval => syscallReply pid rval
    | .ok path =>
      match ← findVnode path with
      | none =>
        modifyFiles fun s => s.newVnode block
        modifyFiles fun s => s.setVnode block { s.vnodes block with
          maxReaders := readers, maxWriters := writers }
        match ((← get).files.vnodes block).increaseRefs mode with
        | .error _ =>
          freeVnode block
          syscallReply pid vfsError
        | .ok v => modifyFiles fun s => s.setVnode block v
        modifyFiles fun s => s.setVnode block { s.vnodes block with readers := 0, writers := 0 }
        nfsfsOpen pid block path mode
        modifyFiles fun s => s.addVnode block
      | some a =>
        if readers = fmUnlimitedRw ∧ writers = fmUnlimitedRw then vfsOpenDone pid a mode vfsOk
        else syscallReply pid Sos.vfsOpen

/-! ## The other calls -/

/-- `vfs_close`. -/
def vfsClose (pid : Pid) (file : Int) : VfsM Unit := do
  match ← getVfile pid file false with
  | none => pure ()
  | some (p, i) =>
    let vf := p.files i
    match vf.vnode with
    | none => throw .nullPointer
    | some a =>
      let ref := (vf.ref - 1) % wordLimit
      if ref = 0 then
        modifyFiles fun s => (s.setProcess pid ((p.setFd file vfsNilFile).setFile i
          { vnode := none, fmode := 0, fp := 0, ref := 0 })).setVnode
            a ((s.vnodes a).decreaseRefs vf.fmode)
      else
        modifyFiles fun s => s.setProcess pid
          ((p.setFd file vfsNilFile).setFile i { vf with ref := ref })
      let v := (← get).files.vnodes a
      if v.unused then
        match v.fs with
        | .null => throw .nullPointer
        | .nfs => nfsfsClose pid a
        | .console => consoleClose pid a
      else
        syscallReply pid vfsOk

/-- `vfs_read`. -/
def vfsRead (pid : Pid) (file : Int) (nbyte : Nat) : VfsM Unit := do
  match ← getVfile pid file true with
  | none => pure ()
  | some (p, i) =>
    let vf := p.files i
    if !reads vf.fmode then syscallReply pid vfsPerm
    else
      match vf.vnode with
      | none => throw .nullPointer
      | some a =>
        match ((← get).files.vnodes a).fs with
        | .null => throw .nullPointer
        | .nfs => nfsfsRead pid a file vf.fp.toNat (min nbyte ioMaxBuffer)
        | .console => consoleRead pid a file (min nbyte ioMaxBuffer)

/-- `vfs_write`. -/
def vfsWrite (pid : Pid) (file : Int) (nbyte : Nat) (newline : Bool) (sends : List Int) :
    VfsM Unit := do
  match ← getVfile pid file true with
  | none => pure ()
  | some (p, i) =>
    let vf := p.files i
    if !writes vf.fmode then syscallReply pid vfsPerm
    else
      match vf.vnode with
      | none => throw .nullPointer
      | some a =>
        match ((← get).files.vnodes a).fs with
        | .null => throw .nullPointer
        | .nfs => nfsfsWrite pid a file vf.fp.toNat (min nbyte ioMaxBuffer)
        | .console => consoleWrite pid a file (min nbyte ioMaxBuffer) newline sends

/-- `vfs_flush`. -/
def vfsFlush (pid : Pid) (file : Int) (sends : List Int) : VfsM Unit := do
  match ← getVfile pid file false with
  | none => pure ()
  | some (p, i) =>
    match (p.files i).vnode with
    | none => throw .nullPointer
    | some a =>
      match ((← get).files.vnodes a).fs with
      | .null => throw .nullPointer
      | .nfs => nfsfsFlush pid
      | .console => consoleFlush pid a sends

/-- `vfs_lseek`. -/
def vfsLseek (pid : Pid) (file : Int) (pos whence : Int) : VfsM Unit := do
  match ← getVfile pid file true with
  | none => pure ()
  | some (p, i) =>
    let vf := p.files i
    match vf.vnode with
    | none => throw .nullPointer
    | some a =>
      let size : Int := ((← get).files.vnodes a).stSize
      let fp :=
        if whence = seekSet then pos % wordLimit
        else if whence = seekCur then (vf.fp + pos) % wordLimit
        else if whence = seekEnd then (size - pos) % wordLimit
        else vf.fp
      modifyFiles fun s => s.setProcess pid (p.setFile i { vf with fp := fp })
      syscallReply pid vfsOk

/-- The walk of `vfs_getdirent` through the special files: the name at the position, or how many
there are. -/
def specialFrom (s : Files) (pos : Int) : Nat → Option Nat → Int → Option (Except Nat Int)
  | _, none, pos2 => some (.ok pos2)
  | 0, some _, _ => none
  | n + 1, some a, pos2 =>
    if (s.vnodes a).stType = stSpecial then
      if pos = pos2 then some (.error (s.vnodes a).path.length)
      else specialFrom s pos n (s.vnodes a).next (pos2 + 1)
    else specialFrom s pos n (s.vnodes a).next pos2

/-- `vfs_getdirent`. -/
def vfsGetdirent (pid : Pid) (pos : Int) (nbyte : Nat) : VfsM Unit := do
  if pos < 0 ∨ nbyte = 0 then syscallReply pid vfsError
  else
    let s ← get
    match specialFrom s.files pos s.files.mallocs s.files.globalVNodes 0 with
    | none => throw .endless
    | some (.error nlen) => syscallReply pid (if nlen < nbyte then nlen else vfsNomem)
    | some (.ok pos2) => nfsfsGetdirent pid (pos - pos2) nbyte

/-- `vfs_stat`. -/
def vfsStat (pid : Pid) (path : Path) : VfsM Unit := do
  match ← findVnode path with
  | none => request pid (.stat path)
  | some a =>
    match ((← get).files.vnodes a).fs with
    | .null => throw .nullPointer
    | .nfs => nfsfsStatOpen pid a
    | .console => consoleStat pid a

/-- `vfs_remove`. Neither file system removes an open file. -/
def vfsRemove (pid : Pid) (path : Path) : VfsM Unit := do
  match ← findVnode path with
  | none => request pid (.remove path)
  | some a =>
    let v := (← get).files.vnodes a
    if !writes v.stFmode then syscallReply pid vfsPerm
    else
      match v.fs with
      | .null => throw .nullPointer
      | .nfs => syscallReply pid Sos.vfsOpen
      | .console => syscallReply pid vfsNotimp

/-- Change the PCB. -/
def updProcess (pid : Pid) (f : Process → Process) : VfsM Unit :=
  modifyFiles fun s =>
    match s.sosProcs pid with
    | .pcb p => s.setProcess pid (f p)
    | _ => s

/-- `vfs_dup`. The descriptor that is replaced is closed with the replies of the process off. -/
def vfsDup (pid : Pid) (forig fdup : Int) : VfsM Unit := do
  match ← getVfile pid forig true with
  | none => pure ()
  | some (p, i) =>
    if (fdup < 0 ∨ 19 ≤ fdup) ∧ fdup ≠ vfsNilFile then syscallReply pid vfsNofile
    else
      let fdup ←
        if fdup = vfsNilFile then do
          match p.freeFd with
          | none => pure vfsNilFile
          | some fd =>
            updProcess pid fun p => p.setFd fd ((p.fdFile? forig).getD vfsNilFile)
            pure (fd : Int)
        else do
          match ← getVfile pid fdup false with
          | none => pure ()
          | some _ =>
            updProcess pid ({ · with ipcAccept := .none })
            vfsClose pid fdup
            updProcess pid ({ · with ipcAccept := p.ipcAccept })
          updProcess pid fun p => p.setFd fdup ((p.fdFile? forig).getD vfsNilFile)
          pure fdup
      if fdup = vfsNilFile then syscallReply pid vfsNomore
      else
        updProcess pid fun p =>
          p.setFile i { p.files i with ref := ((p.files i).ref + 1) % wordLimit }
        syscallReply pid fdup

end Sos.Vfs
