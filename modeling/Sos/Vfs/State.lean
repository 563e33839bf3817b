import Sos.State

/-!
# The state of the file layer

The data of `vfs.c`, `nfsfs.c` and `console.c`, which run in the root server: the vnodes and the
list of open ones, the file tables of the processes, the queue of NFS requests, the console, and
the replies sent.

A vnode is a block of memory with an address. `free` does not clear the block, and `malloc` may hand
it out again; a pointer that has been kept in the meantime reads and writes what is there now.
-/

namespace Sos

/-! ## Return codes -/

def vfsOk : Int := 0
def vfsError : Int := -999
def vfsPerm : Int := -998
def vfsNofile : Int := -997
def vfsNomem : Int := -995
def vfsNomore : Int := -994
def vfsPathinv : Int := -993
def vfsCorvnode : Int := -992
def vfsNotimp : Int := -991
def vfsWritefull : Int := -990
def vfsReadfull : Int := -989
def vfsDir : Int := -987
def vfsExist : Int := -986
def vfsBadmode : Int := -985

/-- `SOS_WRITE`, the second word of the reply to a write. -/
def sosWrite : Int := 10

def seekCur : Int := 0
def seekEnd : Int := 1
def seekSet : Int := 2

def stSpecial : Nat := 0
def stFile : Nat := 1

def consoleBufSiz : Nat := 128

/-! ## Vnodes -/

/-- What `extra` points to: nothing, an `NFS_File` with its handle once a lookup has filled it in,
or the `Console_File`, which is not on the heap. -/
inductive Extra
  | null
  | nfsFile (fh : Option Nat)
  | consoleFile
deriving DecidableEq, Repr

/-- The function pointers of a vnode are all NULL, or all those of one file system. -/
inductive FileSystem
  | null | nfs | console
deriving DecidableEq, Repr

/-- `struct VNode_t`. -/
structure VNode where
  path : Path := []
  stType : Nat := 0
  stFmode : Nat := 0
  stSize : Nat := 0
  maxReaders : Nat := fmUnlimitedRw
  maxWriters : Nat := fmUnlimitedRw
  readers : Nat := 0
  writers : Nat := 0
  extra : Extra := .null
  previous : Option Nat := none
  next : Option Nat := none
  fs : FileSystem := .null
deriving DecidableEq, Repr

/-- The vnodes, the file tables and the copy buffers. Two fields are ghosts: `mallocs` counts the
vnodes made so far, and `lost` are the open files, with vnode and mode, of the PCBs that have been
removed from the table with files open. -/
structure Files where
  sosProcs : Pid → Slot
  vnodes : Nat → VNode
  /-- The blocks `malloc` has handed out and that have not been freed. -/
  allocated : Nat → Bool
  globalVNodes : Option Nat
  mallocs : Nat
  lost : List (Nat × Nat)
  /-- `copyInOutBuffer`, of which `read_cb` writes and `nfs_write` sends the part of a caller. What
  else is put there is not followed here. -/
  buffers : Nat → UInt8

/-! ## Calls and replies -/

/-- Who a call is from: a process (`own`), or the pager on its behalf. A ghost, that goes with the
requests made for the call. -/
structure Caller where
  id : Nat
  pid : Pid
  inc : Nat
  own : Bool
deriving DecidableEq, Repr

/-- A reply that has been sent, with the call it was sent for and the vnode it is the descriptor
of, if it answers an open. -/
structure Answer where
  pid : Pid
  words : List Int
  caller : Caller
  opened : Option Nat := none
deriving DecidableEq, Repr

/-! ## NFS -/

/-- `NfsRequestType` with the fields of the request structures. -/
inductive RequestType
  | lookup (vnode : Nat) (mode : Nat)
  | read (vnode : Nat) (file : Int) (pos nbyte : Nat)
  | write (vnode : Nat) (file : Int) (offset nbyte : Nat)
  | stat (path : Path)
  | dir (pos : Int) (nbyte : Nat) (cpos : Int)
  | remove (path : Path)
deriving DecidableEq, Repr

/-- The vnode a request is about. -/
def RequestType.vnode? : RequestType → Option Nat
  | .lookup a _ | .read a .. | .write a .. => some a
  | _ => none

/-- `NFS_BaseRequest`. `id` stands for the address of the request: it counts the requests made. -/
structure NfsRequest where
  id : Nat
  token : Nat
  pid : Pid
  rt : RequestType
  caller : Caller
deriving DecidableEq, Repr

/-- The procedures of the NFS library. -/
inductive RpcProc
  | lookup (path : Path)
  | create (path : Path)
  | read (fh : Option Nat) (pos nbyte : Nat)
  | write (fh : Option Nat) (offset : Nat) (data : List UInt8)
  | readdir (cookie : Int)
  | remove (path : Path)
deriving DecidableEq, Repr

/-- The callbacks passed to them. -/
inductive RpcCallback
  | lookupCb | readCb | writeCb | getdirentCb | statCb | removeCb
deriving DecidableEq, Repr

/-- A call of the NFS library that has not been answered yet. -/
structure Rpc where
  proc : RpcProc
  callback : RpcCallback
  token : Nat
deriving DecidableEq, Repr

/-- `nfs_stat`. -/
inductive NfsStatus
  | ok | perm | noent | io | nxio | acces | exist | nodev | notdir | isdir | fbig | nospc | rofs
  | nametoolong | notempty | dquot | stale | wflush | other
deriving DecidableEq, Repr

/-- `status_nfs2vfs`. -/
def NfsStatus.toVfs : NfsStatus → Int
  | .ok => vfsOk
  | .rofs | .acces | .perm => vfsPerm
  | .noent => vfsNovnode
  | .nametoolong | .nodev => vfsPathinv
  | .isdir => vfsDir
  | .exist => vfsExist
  | .stale => vfsCorvnode
  | _ => vfsError

/-- The fields of `fattr_t` that are kept. -/
structure Fattr where
  type : Nat
  mode : Nat
  size : Nat
deriving DecidableEq, Repr

/-- The arguments of a callback; each reads the ones it has. -/
structure RpcAnswer where
  status : NfsStatus := .ok
  fh : Nat := 0
  attr : Fattr := ⟨stFile, 6, 0⟩
  bytesRead : Int := 0
  data : List UInt8 := []
  /-- The sizes of the file names in a part of a directory. -/
  filenames : List Nat := []
  nextCookie : Int := 0
deriving DecidableEq, Repr

/-- The variables of `nfsfs.c` and the calls of the library under way. Ghosts are `created`, the
number of requests made, and the ids of the requests that have been started and completed. -/
structure Nfs where
  requests : List NfsRequest
  tok : Nat
  rpcs : List Rpc
  created : Nat
  started : List Nat
  completed : List Nat

/-! ## The console -/

/-- `Console_ReadRequest` with a reader. -/
structure Reader where
  pid : Pid
  file : Int
  nbyte : Nat
  rbyte : Nat
  caller : Caller
deriving DecidableEq, Repr

/-- `Console_Files[0]`; `reader` is `none` while `reader.pid` is `NIL_PID`. -/
structure Console where
  vnode : Nat
  reader : Option Reader
  bufUsed : Nat

/-! ## The root server -/

/-- The file layer. `caller` is the call being served, and `calls` counts the calls, both
ghosts. -/
structure Vfs where
  files : Files
  nfs : Nfs
  console : Console
  replies : List Answer
  caller : Caller
  calls : Nat
  incs : Nat

/-- What stops the root server: a use of NULL or of a reserved PCB, an array index out of range, a
`free` of something that `malloc` has not handed out, or a walk through the list of vnodes that does
not end. -/
inductive VfsFault
  | nullPointer
  | placeholder
  | outOfBounds
  | freeStatic
  | doubleFree
  | endless
deriving DecidableEq, Repr

/-- Code of the root server. -/
abbrev VfsM := EStateM VfsFault Vfs

end Sos
