import Sos.Vfs.Calls

/-!
# The root server

The messages that reach the file layer, and the states reachable by them. Calls are made by
processes, one at a time each; the pager opens and closes files on behalf of a process; the NFS
library answers calls, in any order; characters arrive on the serial line; and processes come and
go.
-/

namespace Sos.Vfs

open Hoare

inductive Event
  /-- `SOS_OPEN`; `block` is the memory `malloc` hands out, if a vnode is made. -/
  | open (pid : Pid) (path : Path) (mode readers writers block : Nat)
  | close (pid : Pid) (fd : Int)
  | read (pid : Pid) (fd : Int) (nbyte : Nat)
  /-- `SOS_WRITE`; `newline` tells whether the data ends in one, `sends` what the serial library
  returns. -/
  | write (pid : Pid) (fd : Int) (nbyte : Nat) (newline : Bool) (sends : List Int)
  | flush (pid : Pid) (fd : Int) (sends : List Int)
  | lseek (pid : Pid) (fd : Int) (pos whence : Int)
  | getdirent (pid : Pid) (pos : Int) (nbyte : Nat)
  | stat (pid : Pid) (path : Path)
  | remove (pid : Pid) (path : Path)
  | dup (pid : Pid) (forig fdup : Int)
  /-- The private calls of the pager, `PSOS_OPEN` and so on. -/
  | psOpen (pid : Pid) (path : Path) (mode readers writers block : Nat)
  | psClose (pid : Pid) (fd : Int)
  | psFlush (pid : Pid) (fd : Int) (sends : List Int)
  | psDup (pid : Pid) (forig fdup : Int)
  /-- The library answers the call at position `i` of those under way. -/
  | rpcReply (i : Nat) (ans : RpcAnswer)
  | serial (newline : Bool)
  /-- `reserve_pid`, `process_prepare2`, `process_run`, the first part of `processDelete` and
  `process_remove`. -/
  | reserve (pid : Pid)
  | spawn (pid : Pid) (p : Process)
  | run (pid : Pid)
  | zombie (pid : Pid)
  | removePcb (pid : Pid)

/-- The process a call comes from. -/
def Event.client : Event → Option Pid
  | .open pid .. | .close pid _ | .read pid .. | .write pid .. | .flush pid .. | .lseek pid ..
  | .getdirent pid .. | .stat pid _ | .remove pid _ | .dup pid .. => some pid
  | _ => none

/-- The process on behalf of which the pager makes a call. -/
def Event.behalf : Event → Option Pid
  | .psOpen pid .. | .psClose pid _ | .psFlush pid .. | .psDup pid .. => some pid
  | _ => none

/-- The memory that is handed out if the event makes a vnode. -/
def Event.block : Event → Option Nat
  | .open _ _ _ _ _ b | .psOpen _ _ _ _ _ b => some b
  | _ => none

/-- The calls that are still to be completed: those of the queued requests, and that of the reader
of the console. -/
def pending (s : Vfs) : List Caller :=
  s.nfs.requests.map (·.caller) ++ (s.console.reader.map (·.caller)).toList

/-- The process of a pid. -/
def process? (s : Vfs) (pid : Pid) : Option Process := (s.files.sosProcs pid).pcb?

/-- The process waits for the completion of a call of its own. -/
def Blocked (s : Vfs) (pid : Pid) : Prop :=
  ∃ p ∈ s.process? pid, ∃ c ∈ s.pending, c.own = true ∧ c.pid = pid ∧ c.inc = p.inc

/-- The process runs, and is not waiting. -/
def Running (s : Vfs) (pid : Pid) : Prop :=
  (∃ p ∈ s.process? pid, p.state = .alive ∧ p.ipcAccept ≠ .none) ∧
    pid ≠ rootserverno ∧ ¬ s.Blocked pid

/-- An event can happen. A process is set up by the pager before its first call; a new PCB has empty
tables. -/
def Enabled (s : Vfs) (e : Event) : Prop :=
  (∀ b ∈ e.block, s.files.allocated b = false) ∧
  match e with
  | .psOpen pid .. | .psDup pid .. => ¬ s.Blocked pid
  | .psClose .. | .psFlush .. | .serial _ => True
  | .rpcReply i _ => i < s.nfs.rpcs.length
  | .reserve pid | .spawn pid _ => s.process? pid = none
  | .run pid => ∃ p ∈ s.process? pid, p.state = .start
  | .zombie pid => (s.process? pid).isSome
  | .removePcb pid => ∃ p ∈ s.process? pid, p.state = .zombie
  | e => ∀ pid ∈ e.client, s.Running pid

instance (s : Vfs) (pid : Pid) : Decidable (s.Blocked pid) :=
  inferInstanceAs (Decidable (∃ _ ∈ _, _))

instance (s : Vfs) (pid : Pid) : Decidable (s.Running pid) :=
  inferInstanceAs (Decidable ((∃ _ ∈ _, _) ∧ _))

instance (s : Vfs) (e : Event) : Decidable (Enabled s e) := by
  unfold Enabled
  rcases e <;> infer_instance

/-! ## Handling -/

/-- Serve a call. -/
def serve (pid : Pid) (own : Bool) (m : VfsM Unit) : VfsM Unit := do
  modify fun s => { s with
    caller := ⟨s.calls, pid, ((s.process? pid).map (·.inc)).getD 0, own⟩
    calls := s.calls + 1 }
  m

/-- Write to the process table. -/
def setSlot (pid : Pid) (x : Slot) : VfsM Unit :=
  modifyFiles fun s => { s with sosProcs := Function.update s.sosProcs pid x }

/-- `syscall_handle`, for the calls on files, and the other things that happen to the file layer. -/
def handle : Event → VfsM Unit
  | .open pid path mode readers writers block =>
    serve pid true (vfsOpen pid path (mode % 256) (readers % wordLimit) (writers % wordLimit) block)
  | .close pid fd => serve pid true (vfsClose pid fd)
  | .read pid fd nbyte => serve pid true (vfsRead pid fd nbyte)
  | .write pid fd nbyte newline sends => serve pid true (vfsWrite pid fd nbyte newline sends)
  | .flush pid fd sends => serve pid true (vfsFlush pid fd sends)
  | .lseek pid fd pos whence => serve pid true (vfsLseek pid fd pos whence)
  | .getdirent pid pos nbyte => serve pid true (vfsGetdirent pid pos nbyte)
  | .stat pid path => serve pid true (vfsStat pid path)
  | .remove pid path => serve pid true (vfsRemove pid path)
  | .dup pid forig fdup => serve pid true (vfsDup pid forig fdup)
  | .psOpen pid path mode readers writers block =>
    serve pid false (vfsOpen pid path (mode % 256) (readers % wordLimit)
      (writers % wordLimit) block)
  | .psClose pid fd => serve pid false (vfsClose pid fd)
  | .psFlush pid fd sends => serve pid false (vfsFlush pid fd sends)
  | .psDup pid forig fdup => serve pid false (vfsDup pid forig fdup)
  | .rpcReply i ans => do
    match (← get).nfs.rpcs[i]? with
    | none => pure ()
    | some rpc =>
      modifyNfs fun n => { n with rpcs := n.rpcs.eraseIdx i }
      callback rpc.callback rpc.token ans
  | .serial newline => serialReadCallback newline
  | .reserve pid => setSlot pid .placeholder
  | .spawn pid p => do
    let s ← get
    setSlot pid (.pcb { p with
      fds := fun _ => vfsNilFile, files := fun _ => {}, state := .start, ipcAccept := .all
      inc := s.incs })
    modify fun s => { s with incs := s.incs + 1 }
  | .run pid => updProcess pid ({ · with state := .alive })
  | .zombie pid => updProcess pid ({ · with state := .zombie })
  | .removePcb pid => do
    match (← get).process? pid with
    | none => pure ()
    | some p =>
      setSlot pid .null
      modifyFiles fun s => { s with lost := s.lost ++ p.openFiles }

/-- One step of the root server. -/
def Step (s : Vfs) (e : Event) (s' : Vfs) : Prop := Enabled s e ∧ handle e s = .ok () s'

/-! ## Starting up -/

/-- The vnode that `console_init` makes. -/
def consoleVnode : VNode where
  path := stdoutFn
  stType := stSpecial
  stFmode := fmRead + fmWrite
  maxReaders := 1
  extra := .consoleFile
  fs := .console

/-- `vfs_init`, with the vnode of the console at `a`. -/
def vfsInit (sosProcs : Pid → Slot) (incs a : Nat) : Vfs where
  files := {
    sosProcs := sosProcs
    vnodes := Function.update (fun _ => {}) a consoleVnode
    allocated := Function.update (fun _ => false) a true
    globalVNodes := some a
    mallocs := 1
    lost := []
    buffers := fun _ => 0 }
  nfs := { requests := [], tok := 0, rpcs := [], created := 0, started := [], completed := [] }
  console := { vnode := a, reader := none, bufUsed := 0 }
  replies := []
  caller := ⟨0, rootserverno, 0, false⟩
  calls := 0
  incs := incs

/-- The states after `vfs_init`: no process has a file open. -/
def Started (s : Vfs) : Prop :=
  ∃ sosProcs incs a, s = vfsInit sosProcs incs a ∧
    ∀ pid p, sosProcs pid = .pcb p → p.VfilesInit ∧ p.ipcAccept ≠ .none ∧ p.inc < incs

/-- The states reachable from start-up by steps that satisfy `C`. -/
inductive Reachable (C : Vfs → Event → Prop) : Vfs → Prop
  | start {s} : Started s → Reachable C s
  | step {s e s'} : Reachable C s → C s e → Step s e s' → Reachable C s'

end Sos.Vfs
