import Sos.Vfs.Files

/-!
# Completions and the NFS file system

The callbacks of `vfs.c` by which a file system reports that it is done, and `nfsfs.c`: requests
wait in a queue, the one at the head is with the NFS library, and the callback of the library
completes it and starts the next.
-/

namespace Sos.Vfs

/-! ## Completions -/

/-- `vfs_open_err`. -/
def vfsOpenErr (a : Nat) : VfsM Unit := do
  if ((← get).files.vnodes a).unused then
    modifyFiles fun s => s.removeVnode a
    freeVnode a
  else pure ()

/-- `vfs_open_done`. -/
def vfsOpenDone (pid : Pid) (a : Nat) (mode : Nat) (status : Int) : VfsM Unit := do
  let s ← get
  match s.files.sosProcs pid with
  | .null => vfsOpenErr a
  | .placeholder => throw .placeholder
  | .pcb p =>
    if status ≠ vfsOk then
      vfsOpenErr a
      syscallReply pid status
    else
      match (s.files.vnodes a).increaseRefs mode with
      | .error rval =>
        vfsOpenErr a
        syscallReply pid rval
      | .ok v =>
        modifyFiles fun s => s.setVnode a v
        match p.findNextFd with
        | none =>
          modifyFiles fun s => s.setVnode a (v.decreaseRefs mode)
          vfsOpenErr a
          syscallReply pid vfsNomore
        | some (fd, i) =>
          modifyFiles fun s => s.setProcess pid
            ((p.setFile i { vnode := some a, fmode := mode, fp := 0, ref := 1 }).setFd fd i)
          syscallReplyV pid [fd] (some a)

/-- `vfs_close_done`. -/
def vfsCloseDone (pid : Pid) (a : Nat) (status : Int) : VfsM Unit := do
  if status = vfsOk then
    modifyFiles fun s => s.removeVnode a
    freeVnode a
  else pure ()
  syscallReply pid status

/-- Move the file position on by `n`. -/
def advance (pid : Pid) (p : Process) (i : Fin 16) (n : Int) : VfsM Unit :=
  modifyFiles fun s => s.setProcess pid
    (p.setFile i { p.files i with fp := ((p.files i).fp + n) % wordLimit })

/-- `vfs_read_done`. -/
def vfsReadDone (pid : Pid) (file : Int) (nbyte status : Int) : VfsM Unit := do
  match ← getVfile pid file true with
  | none => pure ()
  | some (p, i) =>
    if status < 0 then
      syscallReply pid status
    else
      advance pid p i nbyte
      syscallReply pid (if status = 0 then vfsEof else status)

/-- `vfs_write_done`. -/
def vfsWriteDone (pid : Pid) (file : Int) (nbyte status : Int) : VfsM Unit := do
  if status < 0 then
    syscallReply pid status
  else
    match ← getVfile pid file true with
    | none => pure ()
    | some (p, i) =>
      advance pid p i nbyte
      syscallReplyV pid [status, sosWrite]

/-! ## The queue of requests -/

/-- Change the state of `nfsfs.c`. -/
def modifyNfs (f : Nfs → Nfs) : VfsM Unit := modify fun s => { s with nfs := f s.nfs }

/-- `NULL_TOKEN - 1`. -/
def tokenModulus : Nat := wordLimit - 2

/-- Hand a call to the NFS library. A name that does not fit into a message is handed over as well,
where `addtobuf` fails. -/
def issue (proc : RpcProc) (callback : RpcCallback) (token : Nat) : VfsM Unit :=
  modifyNfs fun n => { n with rpcs := n.rpcs ++ [⟨proc, callback, token⟩] }

/-- The handle in `&(nf->fh)`; it is not there when `extra` is NULL. -/
def handleOf (v : VNode) : Option Nat :=
  match v.extra with
  | .nfsFile fh => fh
  | _ => none

/-- `rq->buf`: the system call handler passes `pager_buffer` of the caller. -/
def buf (rq : NfsRequest) : Nat := pagerBuffer rq.pid

/-- The `rq_…_run` functions. A file opened for writing is made anew, unless the mode says to keep
it. -/
def rpcOf (s : Files) (rq : NfsRequest) : RpcProc × RpcCallback :=
  match rq.rt with
  | .lookup a mode =>
    (if writes mode ∧ mode &&& fmNotrunc = 0 then .create (s.vnodes a).path
      else .lookup (s.vnodes a).path, .lookupCb)
  | .read a _ pos nbyte => (.read (handleOf (s.vnodes a)) pos nbyte, .readCb)
  | .write a _ offset nbyte =>
    (.write (handleOf (s.vnodes a)) offset (bytesAt s.buffers (buf rq) nbyte), .writeCb)
  | .stat path => (.lookup path, .statCb)
  | .dir .. => (.readdir 0, .getdirentCb)
  | .remove path => (.remove path, .removeCb)

/-- `run_request`. -/
def runRequest (rq : NfsRequest) : VfsM Unit := do
  let s ← get
  modifyNfs fun n => { n with started := n.started ++ [rq.id] }
  issue (rpcOf s.files rq).1 (rpcOf s.files rq).2 rq.token

/-- `create_request`, with `newtoken`. -/
def createRequest (pid : Pid) (rt : RequestType) : VfsM NfsRequest := do
  let s ← get
  let rq : NfsRequest := ⟨s.nfs.created, s.nfs.tok % tokenModulus, pid, rt, s.caller⟩
  modifyNfs fun n => { n with
    requests := n.requests ++ [rq]
    tok := (n.tok + 1) % wordLimit
    created := n.created + 1 }
  return rq

/-- `check_request`. -/
def checkRequest (rq : NfsRequest) : VfsM Unit := do
  match (← get).nfs.requests with
  | [] => runRequest rq
  | head :: _ => if head.id = rq.id then runRequest head else pure ()

/-- Queue a request, and start it if it is alone. -/
def request (pid : Pid) (rt : RequestType) : VfsM Unit := do
  checkRequest (← createRequest pid rt)

/-- `get_request`. -/
def getRequest (token : Nat) : VfsM (Option NfsRequest) := do
  return (← get).nfs.requests.find? (·.token = token)

/-- `run_head_request`. -/
def runHeadRequest : VfsM Unit := do
  match (← get).nfs.requests with
  | [] => pure ()
  | head :: _ => runRequest head

/-- `remove_request`; the completion of the request has been run. -/
def removeRequest (rq : NfsRequest) : VfsM Unit := do
  modifyNfs fun n => { n with
    requests := n.requests.eraseP (·.token = rq.token)
    completed := n.completed ++ [rq.id] }
  runHeadRequest

/-! ## Calls -/

/-- `nfsfs_open`. -/
def nfsfsOpen (pid : Pid) (a : Nat) (path : Path) (mode : Nat) : VfsM Unit := do
  modifyFiles fun s => s.setVnode a { s.vnodes a with
    path := path, readers := 0, writers := 0, stType := stFile, next := none, previous := none
    extra := .nfsFile none, fs := .nfs }
  request pid (.lookup a mode)

/-- `nfsfs_close`. -/
def nfsfsClose (pid : Pid) (a : Nat) : VfsM Unit := do
  modifyFiles fun s => s.freeNfsfile a
  vfsCloseDone pid a vfsOk

/-- `nfsfs_read`. -/
def nfsfsRead (pid : Pid) (a : Nat) (file : Int) (pos nbyte : Nat) : VfsM Unit := do
  if ((← get).files.vnodes a).extra = .null then vfsReadDone pid file 0 vfsNofile
  else request pid (.read a file pos nbyte)

/-- `nfsfs_write`. -/
def nfsfsWrite (pid : Pid) (a : Nat) (file : Int) (offset nbyte : Nat) : VfsM Unit := do
  if ((← get).files.vnodes a).extra = .null then vfsWriteDone pid file 0 vfsNofile
  else request pid (.write a file offset nbyte)

/-- `nfsfs_flush`. -/
def nfsfsFlush (pid : Pid) : VfsM Unit := syscallReply pid vfsNotimp

/-- `nfsfs_getdirent`. -/
def nfsfsGetdirent (pid : Pid) (pos : Int) (nbyte : Nat) : VfsM Unit :=
  request pid (.dir pos nbyte 0)

/-- `nfsfs_stat` of an open file. -/
def nfsfsStatOpen (pid : Pid) (a : Nat) : VfsM Unit := do
  if ((← get).files.vnodes a).extra = .null then syscallReply pid vfsError
  else syscallReply pid vfsOk

/-! ## Callbacks -/

/-- `lookup_cb`, for the request found. -/
def lookupCb (rq : NfsRequest) (a mode : Nat) (ans : RpcAnswer) : VfsM Unit := do
  let s ← get
  if ans.status = .ok then
    if (s.files.vnodes a).extra = .null then throw .nullPointer
    else
      modifyFiles fun s => (s.setVnode a { s.vnodes a with
        extra := .nfsFile (some ans.fh) }).cpStats a ans.attr
      vfsOpenDone rq.pid a mode vfsOk
      removeRequest rq
  else if ans.status = .noent ∧ writes mode then
    issue (.create (s.files.vnodes a).path) .lookupCb rq.token
  else
    modifyFiles fun s => s.freeNfsfile a
    vfsOpenDone rq.pid a mode ans.status.toVfs
    removeRequest rq

/-- `read_cb`. -/
def readCb (rq : NfsRequest) (a : Nat) (file : Int) (ans : RpcAnswer) : VfsM Unit := do
  if ans.status ≠ .ok then
    vfsReadDone rq.pid file 0 ans.status.toVfs
  else
    modifyFiles fun s => (s.memcpy (buf rq) ans.bytesRead.toNat ans.data).cpStats a ans.attr
    vfsReadDone rq.pid file ans.bytesRead ans.bytesRead
  removeRequest rq

/-- `write_cb`. -/
def writeCb (rq : NfsRequest) (a : Nat) (file : Int) (nbyte : Nat) (ans : RpcAnswer) :
    VfsM Unit := do
  if ans.status ≠ .ok then
    vfsWriteDone rq.pid file 0 ans.status.toVfs
  else
    modifyFiles fun s => s.cpStats a ans.attr
    vfsWriteDone rq.pid file nbyte nbyte
  removeRequest rq

/-- `getdirent_cb`. -/
def getdirentCb (rq : NfsRequest) (pos : Int) (nbyte : Nat) (cpos : Int) (ans : RpcAnswer) :
    VfsM Unit := do
  if ans.status ≠ .ok then
    syscallReply rq.pid ans.status.toVfs
    removeRequest rq
  else if pos + 1 ≤ cpos + ans.filenames.length then
    if pos < cpos then throw .outOfBounds
    else
      match ans.filenames[(pos - cpos).toNat]? with
      | none => throw .outOfBounds
      | some size =>
        syscallReply rq.pid (if size + 1 ≤ nbyte then size else vfsNomem)
        removeRequest rq
  else if 0 < ans.nextCookie then
    modifyNfs fun n => { n with requests := n.requests.map fun r =>
      if r.id = rq.id then { r with rt := .dir pos nbyte (cpos + ans.filenames.length) } else r }
    issue (.readdir ans.nextCookie) .getdirentCb rq.token
  else
    syscallReply rq.pid vfsEof
    removeRequest rq

/-- `stat_cb` and `remove_cb`. -/
def statusCb (rq : NfsRequest) (ans : RpcAnswer) : VfsM Unit := do
  syscallReply rq.pid ans.status.toVfs
  removeRequest rq

/-- The callback of a call to the library, with the request looked up by its token. A request of
another kind than the callback is for would be read as one of its kind. -/
def callback (cb : RpcCallback) (token : Nat) (ans : RpcAnswer) : VfsM Unit := do
  match ← getRequest token with
  | none => pure ()
  | some rq =>
    modify fun s => { s with caller := rq.caller }
    match cb, rq.rt with
    | .lookupCb, .lookup a mode => lookupCb rq a mode ans
    | .readCb, .read a file _ _ => readCb rq a file ans
    | .writeCb, .write a file _ nbyte => writeCb rq a file nbyte ans
    | .getdirentCb, .dir pos nbyte cpos => getdirentCb rq pos nbyte cpos ans
    | .statCb, .stat _ | .removeCb, .remove _ => statusCb rq ans
    | _, _ => throw .nullPointer

end Sos.Vfs
