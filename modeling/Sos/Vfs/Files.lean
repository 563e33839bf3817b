import Sos.Process
import Sos.Vfs.State

/-!
# Vnodes and file tables

The static functions of `vfs.c`: looking descriptors up, the list of open vnodes, their reference
counts, and making and freeing them. Those that neither fail nor reply are functions on `Files`.
-/

namespace Sos

/-! ## Modes -/

/-- `mode & FM_READ`. -/
def reads (mode : Nat) : Bool := mode &&& fmRead ≠ 0

/-- `mode & FM_WRITE`. -/
def writes (mode : Nat) : Bool := mode &&& fmWrite ≠ 0

/-! ## The tables of a process -/

/-- `vfiles_init` has been run on the tables. -/
def Process.VfilesInit (p : Process) : Prop :=
  (∀ i, p.fds i = vfsNilFile) ∧ ∀ i, p.files i = {}

/-- The first loop of `findNextFd`. -/
def Process.freeFd (p : Process) : Option (Fin 19) :=
  (List.finRange 19).find? fun i => p.fds i = vfsNilFile

/-- The second loop of `findNextFd`. -/
def Process.freeFile (p : Process) : Option (Fin 16) :=
  (List.finRange 16).find? fun i => (p.files i).vnode.isNone

/-- `findNextFd`. -/
def Process.findNextFd (p : Process) : Option (Fin 19 × Fin 16) :=
  match p.freeFd, p.freeFile with
  | some fd, some i => some (fd, i)
  | _, _ => none

/-- `findNextFd(p, &dummy, &dummy)`. Both results go to one variable, which is `VFS_NIL_FILE` at the
end only if neither loop has found anything. -/
def Process.canOpenMore (p : Process) : Bool := p.freeFd.isSome || p.freeFile.isSome

/-- The entry of `fds`, for a descriptor in range. -/
def Process.fdFile? (p : Process) (file : Int) : Option Int :=
  if h : 0 ≤ file ∧ file < 19 then some (p.fds ⟨file.toNat, toNat_lt_fds h⟩) else none

/-- The open file of a descriptor: what `get_vfile` finds. -/
def Process.vfile? (p : Process) (file : Int) : Option (Fin 16) :=
  match p.fdFile? file with
  | none => none
  | some e =>
    if h : 0 ≤ e ∧ e < 16 then
      if (p.files ⟨e.toNat, by omega⟩).vnode.isSome then some ⟨e.toNat, by omega⟩ else none
    else none

/-- Write an entry of `fds`. -/
def Process.setFd (p : Process) (file : Int) (e : Int) : Process :=
  if h : 0 ≤ file ∧ file < 19 then
    { p with fds := Function.update p.fds ⟨file.toNat, toNat_lt_fds h⟩ e }
  else p

/-- Write an entry of `files`. -/
def Process.setFile (p : Process) (i : Fin 16) (f : VFile) : Process :=
  { p with files := Function.update p.files i f }

theorem Process.freeFd_eq {p : Process} {fd : Fin 19} (h : p.freeFd = some fd) :
    p.fds fd = vfsNilFile := by
  simpa using List.find?_some h

theorem Process.freeFile_eq {p : Process} {i : Fin 16} (h : p.freeFile = some i) :
    (p.files i).vnode = none := by
  simpa using List.find?_some h

theorem Process.findNextFd_eq {p : Process} {fd : Fin 19} {i : Fin 16}
    (h : p.findNextFd = some (fd, i)) : p.fds fd = vfsNilFile ∧ (p.files i).vnode = none := by
  unfold Process.findNextFd at h
  split at h
  · next fd' i' hfd hi =>
    obtain ⟨rfl, rfl⟩ : fd' = fd ∧ i' = i := by simpa using h
    exact ⟨Process.freeFd_eq hfd, Process.freeFile_eq hi⟩
  · simp at h

@[simp] theorem Process.fdFile?_coe (p : Process) (fd : Fin 19) :
    p.fdFile? fd = some (p.fds fd) := by
  unfold Process.fdFile?
  rw [dif_pos ⟨by omega, by omega⟩]
  rfl

@[simp] theorem Process.setFd_coe (p : Process) (fd : Fin 19) (e : Int) :
    p.setFd fd e = { p with fds := Function.update p.fds fd e } := by
  unfold Process.setFd
  rw [dif_pos ⟨by omega, by omega⟩]
  rfl

/-- A descriptor is open: its entry names a file that is in use. -/
theorem Process.vfile?_eq_some {p : Process} {file : Int} {i : Fin 16} :
    p.vfile? file = some i ↔
      ∃ fd : Fin 19, file = fd ∧ p.fds fd = i ∧ (p.files i).vnode.isSome := by
  constructor
  · intro h
    unfold Process.vfile? Process.fdFile? at h
    split at h
    · simp at h
    · next e he =>
      split at he
      · next hfile =>
        split at h
        · next hrange =>
          split at h
          · next hsome =>
            obtain rfl := Option.some.inj h
            refine ⟨⟨file.toNat, by omega⟩, by simp [hfile.1], ?_, hsome⟩
            rw [Option.some.inj he]
            simp [hrange.1]
          · simp at h
        · simp at h
      · simp at he
  · rintro ⟨fd, rfl, hfd, hi⟩
    unfold Process.vfile?
    rw [Process.fdFile?_coe, hfd]
    dsimp only
    rw [dif_pos ⟨by omega, by omega⟩]
    exact if_pos hi

/-- The files a process has open: vnode and mode. -/
def Process.openFiles (p : Process) : List (Nat × Nat) :=
  (List.finRange 16).filterMap fun i => (p.files i).vnode.map (·, (p.files i).fmode)

/-! ## Reference counts -/

/-- `increase_refs`: the vnode with the counts raised, or why it cannot be opened. -/
def VNode.increaseRefs (v : VNode) (mode : Nat) : Except Int VNode :=
  if reads mode ∧ v.maxReaders ≤ v.readers ∧ v.maxReaders ≠ fmUnlimitedRw then
    .error vfsReadfull
  else if writes mode ∧ v.maxWriters ≤ v.writers ∧ v.maxWriters ≠ fmUnlimitedRw then
    -- the count of readers, raised before, is lowered again
    .error vfsWritefull
  else
    .ok { v with
      readers := if reads mode then (v.readers + 1) % wordLimit else v.readers
      writers := if writes mode then (v.writers + 1) % wordLimit else v.writers }

/-- `decrease_refs`; the unsigned counts are never below 0. -/
def VNode.decreaseRefs (v : VNode) (mode : Nat) : VNode :=
  { v with
    readers := if reads mode then (v.readers + (wordLimit - 1)) % wordLimit else v.readers
    writers := if writes mode then (v.writers + (wordLimit - 1)) % wordLimit else v.writers }

/-- Nobody has the vnode open. -/
def VNode.unused (v : VNode) : Bool := v.readers = 0 && v.writers = 0

namespace Files

/-- Write to a vnode. -/
def setVnode (s : Files) (a : Nat) (v : VNode) : Files :=
  { s with vnodes := Function.update s.vnodes a v }

/-- Write to a PCB. -/
def setProcess (s : Files) (pid : Pid) (p : Process) : Files :=
  { s with sosProcs := Function.update s.sosProcs pid (.pcb p) }

/-! ## The list of open vnodes -/

/-- `vnode->next = …` -/
def setNext (s : Files) (a : Nat) (b : Option Nat) : Files :=
  s.setVnode a { s.vnodes a with next := b }

/-- `vnode->previous = …` -/
def setPrevious (s : Files) (a : Nat) (b : Option Nat) : Files :=
  s.setVnode a { s.vnodes a with previous := b }

/-- `add_vnode`. -/
def addVnode (s : Files) (a : Nat) : Files :=
  let s := (s.setNext a none).setPrevious a none
  let s := match s.globalVNodes with
    | none => s
    | some b => (s.setNext a (some b)).setPrevious b (some a)
  { s with globalVNodes := some a }

/-- `remove_vnode`. -/
def removeVnode (s : Files) (a : Nat) : Files :=
  let s := match (s.vnodes a).previous, (s.vnodes a).next with
    | none, none => { s with globalVNodes := none }
    | some vp, none => s.setNext vp none
    | none, some vn => { s with globalVNodes := some vn }.setPrevious vn none
    | some vp, some vn => (s.setNext vp (some vn)).setPrevious vn (some vp)
  (s.setNext a none).setPrevious a none

/-- The walk of `find_vnode` from a vnode on; the outer `none` is a walk that has not ended after
`n` vnodes. -/
def findVnodeFrom (s : Files) (path : Path) : Nat → Option Nat → Option (Option Nat)
  | _, none => some none
  | 0, some _ => none
  | n + 1, some a =>
    if (s.vnodes a).path = path then some (some a) else s.findVnodeFrom path n (s.vnodes a).next

/-- `find_vnode`. A list without a cycle has at most as many vnodes as have been made. -/
def findVnode (s : Files) (path : Path) : Option (Option Nat) :=
  s.findVnodeFrom path s.mallocs s.globalVNodes

/-! ## Making vnodes -/

/-- `new_vnode`, in the block that `malloc` has handed out. The attributes are not set. -/
def newVnode (s : Files) (a : Nat) : Files :=
  { s.setVnode a { s.vnodes a with
      path := [], maxReaders := fmUnlimitedRw, maxWriters := fmUnlimitedRw, readers := 0
      writers := 0, extra := .null, previous := none, next := none, fs := .null } with
    allocated := Function.update s.allocated a true
    mallocs := s.mallocs + 1 }

/-- `free_nfsfile`. -/
def freeNfsfile (s : Files) (a : Nat) : Files :=
  s.setVnode a { s.vnodes a with extra := .null }

/-- `cp_stats(&(vnode->vstat), attr)`. -/
def cpStats (s : Files) (a : Nat) (attr : Fattr) : Files :=
  s.setVnode a { s.vnodes a with
    stType := attr.type, stFmode := attr.mode % 256, stSize := attr.size }

/-- `memcpy(buf, data, n)`. -/
def memcpy (s : Files) (buf n : Nat) (data : List UInt8) : Files :=
  { s with buffers := blit s.buffers buf n fun i => data.getD i 0 }

end Files

namespace Vfs

open Hoare

/-- Change the vnodes and the tables. -/
def modifyFiles (f : Files → Files) : VfsM Unit := modify fun s => { s with files := f s.files }

/-! ## Replies -/

/-- A reply to the process is sent, and not dropped by `syscall_reply_v`. -/
def answerable (s : Files) (pid : Pid) : Bool :=
  match s.sosProcs pid with
  | .pcb p => pid ≠ rootserverno && p.ipcAccept ≠ .none && p.state ≠ .zombie && p.state ≠ .start
  | _ => false

/-- `syscall_reply_v(process_get_tid(process_lookup(pid)), …)`. Without a process the reply is to
the nil thread, and is dropped. -/
def syscallReplyV (pid : Pid) (words : List Int) (opened : Option Nat := none) : VfsM Unit := do
  match (← get).files.sosProcs pid with
  | .placeholder => throw .placeholder
  | _ => modify fun s => if answerable s.files pid then
      { s with replies := s.replies ++ [⟨pid, words, s.caller, opened⟩] } else s

def syscallReply (pid : Pid) (rval : Int) : VfsM Unit := syscallReplyV pid [rval]

/-! ## Descriptors -/

/-- `get_vfile`. -/
def getVfile (pid : Pid) (file : Int) (ipc : Bool) : VfsM (Option (Process × Fin 16)) := do
  match (← get).files.sosProcs pid with
  | .null => return none
  | .placeholder => throw .placeholder
  | .pcb p =>
    match p.vfile? file with
    | some i => return some (p, i)
    | none =>
      if ipc then syscallReply pid vfsNofile else pure ()
      return none

/-! ## Freeing vnodes -/

/-- `free_vnode`. -/
def freeVnode (a : Nat) : VfsM Unit := do
  if ((← get).files.vnodes a).extra = .consoleFile then throw .freeStatic
  else
    modifyFiles fun s => s.freeNfsfile a
    if (← get).files.allocated a then
      modifyFiles fun s => { s with allocated := Function.update s.allocated a false }
    else throw .doubleFree

/-- The walk of `find_vnode`, as a step of the root server. -/
def findVnode (path : Path) : VfsM (Option Nat) := do
  match (← get).files.findVnode path with
  | none => throw .endless
  | some r => return r

end Vfs

end Sos
