import Sos.Vfs.Server

/-!
# What the calls do

For each function of the file layer, the states it can end in. The parts are functions on the state
without faults (`Files.drop`, `Files.install`, `Vfs.replied`, `Vfs.requested`, …), and a relation
lists the ways through a function, with what has been tested on the way: `OpenDone`, `Opened` and
`Closed` here, and those for the other calls and for a whole step in `Sos.Vfs.Steps`. The invariants
are proved by cases on these.

Of the faults only the `free` of something that is not on the heap is followed, by `Unless`.
-/

namespace Sos

open Hoare

variable {p : Process} {fd : Int} {Q : Unit → Vfs → Prop} {i : Fin 16}

theorem VNode.increaseRefs_extra {v w : VNode} {mode : Nat} (h : v.increaseRefs mode = .ok w) :
    w.extra = v.extra := by
  unfold VNode.increaseRefs at h
  split at h
  · simp at h
  · split at h
    · simp at h
    · rw [← Except.ok.inj h]

/-- The tables after the first half of `vfs_close`. -/
def Process.forget (p : Process) (fd : Int) (i : Fin 16) : Process :=
  (p.setFd fd vfsNilFile).setFile i
    (if ((p.files i).ref - 1) % wordLimit = 0 then { vnode := none, fmode := 0, fp := 0, ref := 0 }
    else { p.files i with ref := ((p.files i).ref - 1) % wordLimit })

namespace Files

/-- What `free_vnode` leaves behind. -/
def freed (s : Files) (a : Nat) : Files :=
  { s.freeNfsfile a with allocated := Function.update s.allocated a false }

/-- `remove_vnode` and `free_vnode`. -/
def drop (s : Files) (a : Nat) : Files := (s.removeVnode a).freed a

/-- `free_vnode` may be called on the vnode. -/
def Freeable (s : Files) (a : Nat) : Prop :=
  (s.vnodes a).extra ≠ .consoleFile ∧ s.allocated a = true

/-- `vfs_open_err`. -/
def openErr (s : Files) (a : Nat) : Files := if (s.vnodes a).unused then s.drop a else s

/-- The vnode and the tables after an open: `v` is the vnode with its counts raised. -/
def install (s : Files) (pid : Pid) (p : Process) (fd : Fin 19) (i : Fin 16) (a mode : Nat)
    (v : VNode) : Files :=
  (s.setVnode a v).setProcess pid
    ((p.setFile i { vnode := some a, fmode := mode, fp := 0, ref := 1 }).setFd fd i)

/-- The vnode and the tables after the first half of `vfs_close`. -/
def unname (s : Files) (pid : Pid) (p : Process) (fd : Int) (i : Fin 16) (a : Nat) : Files :=
  if ((p.files i).ref - 1) % wordLimit = 0 then
    (s.setProcess pid (p.forget fd i)).setVnode a ((s.vnodes a).decreaseRefs (p.files i).fmode)
  else s.setProcess pid (p.forget fd i)

/-- Change the PCB. -/
def upd (s : Files) (pid : Pid) (f : Process → Process) : Files :=
  match s.sosProcs pid with
  | .pcb p => s.setProcess pid (f p)
  | _ => s

/-- A new vnode with its limits. -/
def limited (s : Files) (a readers writers : Nat) : Files :=
  (s.newVnode a).setVnode a { (s.newVnode a).vnodes a with
    maxReaders := readers, maxWriters := writers }

/-- What `vfs_open` and `nfsfs_open` make of it before it is linked. -/
def opening (s : Files) (a : Nat) (path : Path) : Files :=
  s.setVnode a { s.vnodes a with
    path := path, stType := stFile, readers := 0, writers := 0, extra := .nfsFile none
    previous := none, next := none, fs := .nfs }

/-- The vnode that `vfs_open` makes before it is linked. -/
def made (s : Files) (a : Nat) (path : Path) (readers writers : Nat) : Files :=
  (s.limited a readers writers).opening a path

@[simp] theorem setVnode_vnodes_self (s : Files) (a : Nat) (v : VNode) :
    (s.setVnode a v).vnodes a = v := Function.update_self ..

theorem setVnode_vnodes_of_ne (s : Files) {a b : Nat} (v : VNode) (h : b ≠ a) :
    (s.setVnode a v).vnodes b = s.vnodes b := Function.update_of_ne h ..

@[simp] theorem setVnode_setVnode (s : Files) (a : Nat) (v w : VNode) :
    (s.setVnode a v).setVnode a w = s.setVnode a w := by
  simp [setVnode]

theorem made_vnodes_of_ne (s : Files) {a b : Nat} (path : Path) (readers writers : Nat)
    (h : b ≠ a) : (s.made a path readers writers).vnodes b = s.vnodes b := by
  simp [made, opening, limited, newVnode, setVnode, h]

/-- Only file positions, attributes and the copy buffers have changed. -/
structure Quiet (s t : Files) : Prop where
  rest : t = { s with sosProcs := t.sosProcs, vnodes := t.vnodes, buffers := t.buffers }
  slot : ∀ pid, t.sosProcs pid = s.sosProcs pid ∨ ∃ (p : Process) (fp : Fin 16 → Int),
    s.sosProcs pid = .pcb p ∧
      t.sosProcs pid = .pcb { p with files := fun i => { p.files i with fp := fp i } }
  vnode : ∀ a, ∃ type mode size,
    t.vnodes a = { s.vnodes a with stType := type, stFmode := mode, stSize := size }

theorem Quiet.refl (s : Files) : s.Quiet s :=
  ⟨rfl, fun _ => .inl rfl, fun _ => ⟨_, _, _, rfl⟩⟩

theorem Quiet.trans {s t u : Files} (h : s.Quiet t) (h' : t.Quiet u) : s.Quiet u where
  rest := by rw [h'.rest, h.rest]
  slot := fun pid => by
    rcases h.slot pid with ht | ⟨p, fp, hs, ht⟩
    · rw [← ht]
      exact h'.slot pid
    · rcases h'.slot pid with hu | ⟨q, fq, ht', hu⟩
      · exact .inr ⟨p, fp, hs, hu.trans ht⟩
      · obtain rfl := Slot.pcb.inj (ht.symm.trans ht')
        exact .inr ⟨p, fq, hs, hu⟩
  vnode := fun a => by
    obtain ⟨x, y, z, hv⟩ := h.vnode a
    obtain ⟨x', y', z', hv'⟩ := h'.vnode a
    exact ⟨x', y', z', by rw [hv', hv]⟩

theorem Quiet.memcpy (s : Files) (buf n : Nat) (data : List UInt8) :
    s.Quiet (s.memcpy buf n data) :=
  ⟨rfl, fun _ => .inl rfl, fun _ => ⟨_, _, _, rfl⟩⟩

theorem Quiet.cpStats (s : Files) (a : Nat) (attr : Fattr) : s.Quiet (s.cpStats a attr) where
  rest := rfl
  slot := fun _ => .inl rfl
  vnode := fun b => by
    unfold Files.cpStats Files.setVnode
    by_cases hb : b = a
    · subst hb
      exact ⟨_, _, _, Function.update_self ..⟩
    · exact ⟨_, _, _, Function.update_of_ne hb ..⟩

theorem Quiet.seek {s : Files} {pid : Pid} (hp : s.sosProcs pid = .pcb p) (i : Fin 16) (fp : Int) :
    s.Quiet (s.setProcess pid (p.setFile i { p.files i with fp := fp })) where
  rest := rfl
  slot := fun q => by
    unfold Files.setProcess
    by_cases hq : q = pid
    · subst hq
      refine .inr ⟨p, Function.update (fun j => (p.files j).fp) i fp, hp, ?_⟩
      change Function.update s.sosProcs q _ q = _
      rw [Function.update_self, Process.setFile]
      congr 2
      funext j
      by_cases hj : j = i
      · subst hj
        simp
      · simp [hj]
    · exact .inl (Function.update_of_ne hq ..)
  vnode := fun a => ⟨_, _, _, rfl⟩

/-- Only the links of the list have changed. -/
structure Relinked (s t : Files) : Prop where
  rest : t = { s with vnodes := t.vnodes, globalVNodes := t.globalVNodes }
  vnode : ∀ a, ∃ previous next,
    t.vnodes a = { s.vnodes a with previous := previous, next := next }

theorem Relinked.refl (s : Files) : s.Relinked s := ⟨rfl, fun _ => ⟨_, _, rfl⟩⟩

theorem Relinked.trans {s t u : Files} (h : s.Relinked t) (h' : t.Relinked u) : s.Relinked u where
  rest := by rw [h'.rest, h.rest]
  vnode := fun a => by
    obtain ⟨p, n, hv⟩ := h.vnode a
    obtain ⟨p', n', hv'⟩ := h'.vnode a
    exact ⟨p', n', by rw [hv', hv]⟩

theorem relinked_setVnode (s : Files) (a : Nat) (p n : Option Nat) :
    s.Relinked (s.setVnode a { s.vnodes a with previous := p, next := n }) where
  rest := rfl
  vnode := fun b => by
    unfold setVnode
    by_cases hb : b = a
    · subst hb
      exact ⟨_, _, Function.update_self ..⟩
    · exact ⟨_, _, Function.update_of_ne hb ..⟩

theorem relinked_setNext (s : Files) (a : Nat) (b : Option Nat) : s.Relinked (s.setNext a b) :=
  s.relinked_setVnode a _ _

theorem relinked_setPrevious (s : Files) (a : Nat) (b : Option Nat) :
    s.Relinked (s.setPrevious a b) :=
  s.relinked_setVnode a _ _

theorem relinked_globalVNodes (s : Files) (a : Option Nat) :
    s.Relinked { s with globalVNodes := a } := ⟨rfl, fun _ => ⟨_, _, rfl⟩⟩

theorem relinked_addVnode (s : Files) (a : Nat) : s.Relinked (s.addVnode a) := by
  unfold addVnode
  refine .trans ?_ (relinked_globalVNodes _ _)
  refine ((s.relinked_setNext a none).trans (relinked_setPrevious _ a none)).trans ?_
  split
  · exact .refl _
  · exact (relinked_setNext _ _ _).trans (relinked_setPrevious _ _ _)

theorem relinked_removeVnode (s : Files) (a : Nat) : s.Relinked (s.removeVnode a) := by
  unfold removeVnode
  refine .trans ?_ ((relinked_setNext _ a none).trans (relinked_setPrevious _ a none))
  split
  · exact relinked_globalVNodes _ _
  · exact relinked_setNext _ _ _
  · exact (relinked_globalVNodes _ _).trans (relinked_setPrevious _ _ _)
  · exact (relinked_setNext _ _ _).trans (relinked_setPrevious _ _ _)

/-! ### The process table -/

theorem Relinked.sosProcs {s t : Files} (h : s.Relinked t) : t.sosProcs = s.sosProcs := by
  rw [h.rest]

@[simp] theorem drop_sosProcs (s : Files) (a : Nat) : (s.drop a).sosProcs = s.sosProcs :=
  (s.relinked_removeVnode a).sosProcs

@[simp] theorem openErr_sosProcs (s : Files) (a : Nat) : (s.openErr a).sosProcs = s.sosProcs := by
  unfold openErr
  split
  · exact s.drop_sosProcs a
  · rfl

@[simp] theorem addVnode_sosProcs (s : Files) (a : Nat) : (s.addVnode a).sosProcs = s.sosProcs :=
  (s.relinked_addVnode a).sosProcs

theorem unname_sosProcs (s : Files) (pid : Pid) (p : Process) (fd : Int) (i : Fin 16) (a : Nat) :
    (s.unname pid p fd i a).sosProcs =
      Function.update s.sosProcs pid (.pcb (p.forget fd i)) := by
  unfold unname
  split <;> rfl

theorem upd_pcb {s : Files} {pid : Pid} (hp : s.sosProcs pid = .pcb p)
    (g : Process → Process) : s.upd pid g = s.setProcess pid (g p) := by
  unfold upd
  rw [hp]

theorem Relinked.allocated {s t : Files} (h : s.Relinked t) : t.allocated = s.allocated := by
  rw [h.rest]

theorem Relinked.extra {s t : Files} (h : s.Relinked t) (a : Nat) :
    (t.vnodes a).extra = (s.vnodes a).extra := by
  obtain ⟨p, n, hv⟩ := h.vnode a
  rw [hv]

end Files

/-! ## The queue -/

namespace Nfs

/-- `run_request`. -/
def start (n : Nfs) (f : Files) (rq : NfsRequest) : Nfs :=
  { n with
    started := n.started ++ [rq.id]
    rpcs := n.rpcs ++ [⟨(Vfs.rpcOf f rq).1, (Vfs.rpcOf f rq).2, rq.token⟩] }

/-- The request that `create_request` makes. -/
def newRequest (n : Nfs) (pid : Pid) (rt : RequestType) (c : Caller) : NfsRequest :=
  ⟨n.created, n.tok % Vfs.tokenModulus, pid, rt, c⟩

/-- `create_request`. -/
def create (n : Nfs) (pid : Pid) (rt : RequestType) (c : Caller) : Nfs :=
  { n with
    requests := n.requests ++ [n.newRequest pid rt c]
    tok := (n.tok + 1) % wordLimit
    created := n.created + 1 }

/-- `create_request` and `check_request`. -/
def request (n : Nfs) (f : Files) (pid : Pid) (rt : RequestType) (c : Caller) : Nfs :=
  match n.requests with
  | [] => (n.create pid rt c).start f (n.newRequest pid rt c)
  | head :: _ =>
    if head.id = n.created then (n.create pid rt c).start f head else n.create pid rt c

/-- `run_head_request`. -/
def startHead (n : Nfs) (f : Files) : Nfs :=
  match n.requests with
  | [] => n
  | head :: _ => n.start f head

/-- `remove_request`. -/
def remove (n : Nfs) (f : Files) (rq : NfsRequest) : Nfs :=
  { n with
    requests := n.requests.eraseP (·.token = rq.token)
    completed := n.completed ++ [rq.id] : Nfs }.startHead f

/-- A further call of the library for a request under way. -/
def issue (n : Nfs) (proc : RpcProc) (callback : RpcCallback) (token : Nat) : Nfs :=
  { n with rpcs := n.rpcs ++ [⟨proc, callback, token⟩] }

@[simp] theorem request_requests (n : Nfs) (f : Files) (pid : Pid) (rt : RequestType) (c : Caller) :
    (n.request f pid rt c).requests = n.requests ++ [n.newRequest pid rt c] := by
  unfold request
  split
  · rfl
  · split <;> rfl

@[simp] theorem remove_requests (n : Nfs) (f : Files) (rq : NfsRequest) :
    (n.remove f rq).requests = n.requests.eraseP (·.token = rq.token) := by
  unfold remove startHead
  split <;> rfl

end Nfs

namespace Vfs

/-! ## Replies and descriptors -/

/-- The state after `syscall_reply_v`. -/
def replied (s : Vfs) (pid : Pid) (words : List Int) (opened : Option Nat := none) : Vfs :=
  if answerable s.files pid then
    { s with replies := s.replies ++ [⟨pid, words, s.caller, opened⟩] } else s

/-- The state with other vnodes and tables. -/
def withFiles (s : Vfs) (f : Files) : Vfs := { s with files := f }

theorem withFiles_files (s : Vfs) (f : Files) : (s.withFiles f).files = f := rfl

/-- The state after a request has been made. -/
def requested (s : Vfs) (pid : Pid) (rt : RequestType) : Vfs :=
  { s with nfs := s.nfs.request s.files pid rt s.caller }

/-- The state after a request has been taken off the queue. -/
def removed (s : Vfs) (rq : NfsRequest) : Vfs := { s with nfs := s.nfs.remove s.files rq }

/-- The faults other than a `free` of static memory, and that one under a condition. -/
def Unless (P : Prop) (f : VfsFault) (_ : Vfs) : Prop := f = .freeStatic → P

theorem Unless.of_ne {P : Prop} {f : VfsFault} {s : Vfs} (h : f ≠ .freeStatic) : Unless P f s :=
  fun hf => absurd hf h

theorem Unless.mono {P Q : Prop} (h : P → Q) (f : VfsFault) (s : Vfs) (hf : Unless P f s) :
    Unless Q f s := fun he => h (hf he)

variable {s t : Vfs} {pid : Pid} {a b mode : Nat} {E : VfsFault → Vfs → Prop}

theorem replied_of_not_pcb (h : (s.files.sosProcs pid).pcb? = none) (words : List Int)
    (opened : Option Nat) : s.replied pid words opened = s := by
  unfold replied answerable
  cases hp : s.files.sosProcs pid with
  | pcb p => rw [hp] at h; simp [Slot.pcb?] at h
  | _ => simp

@[simp] theorem replied_files (s : Vfs) (pid : Pid) (words : List Int) (opened : Option Nat) :
    (s.replied pid words opened).files = s.files := by
  unfold replied
  split <;> rfl

@[simp] theorem replied_nfs (s : Vfs) (pid : Pid) (words : List Int) (opened : Option Nat) :
    (s.replied pid words opened).nfs = s.nfs := by
  unfold replied
  split <;> rfl

/-- A reply goes to the process in the table. -/
theorem replied_withFiles {f : Files} (h : f.sosProcs = s.files.sosProcs) (words : List Int)
    (opened : Option Nat) :
    (s.withFiles f).replied pid words opened = (s.replied pid words opened).withFiles f := by
  have ha : answerable f pid = answerable s.files pid := by
    unfold answerable
    rw [h]
  unfold replied
  change (if answerable f pid = true then _ else _) = _
  rw [ha]
  split <;> rfl

theorem process?_of_slot (h : s.files.sosProcs pid = .pcb p) :
    s.process? pid = some p := by
  unfold process?
  rw [h]
  rfl

theorem slot_of_process? (h : s.process? pid = some p) :
    s.files.sosProcs pid = .pcb p := by
  unfold process? Slot.pcb? at h
  split at h
  · next q hq =>
    obtain rfl := Option.some.inj h
    exact hq
  · simp at h

/-- A descriptor of a process is open: the PCB and the entry of `files`. -/
def OpenFd (s : Vfs) (pid : Pid) (fd : Int) (p : Process) (i : Fin 16) : Prop :=
  s.files.sosProcs pid = .pcb p ∧ p.vfile? fd = some i

/-- No process has the pid, or the descriptor is not open. -/
def NotOpen (s : Vfs) (pid : Pid) (fd : Int) : Prop := ∀ p ∈ s.process? pid, p.vfile? fd = none

instance (s : Vfs) (pid : Pid) (fd : Int) : Decidable (s.NotOpen pid fd) :=
  inferInstanceAs (Decidable (∀ _ ∈ _, _))

theorem OpenFd.not_notOpen (h : s.OpenFd pid fd p i) :
    ¬ s.NotOpen pid fd := by
  intro hn
  have := hn p (process?_of_slot h.1)
  rw [h.2] at this
  simp at this

theorem exists_openFd (h : ¬ s.NotOpen pid fd) : ∃ p i, s.OpenFd pid fd p i := by
  unfold NotOpen process? at h
  push Not at h
  obtain ⟨p, hp, hopen⟩ := h
  obtain ⟨i, hi⟩ := Option.ne_none_iff_exists'.mp hopen
  exact ⟨p, i, slot_of_process? hp, hi⟩

theorem OpenFd.vnode (h : s.OpenFd pid fd p i) :
    ∃ a, (p.files i).vnode = some a := by
  obtain ⟨_, _, _, hv⟩ := Process.vfile?_eq_some.mp h.2
  exact Option.isSome_iff_exists.mp hv

theorem wp_syscallReplyV {words : List Int} {opened : Option Nat}
    (h : Q () (s.replied pid words opened)) :
    Wp (syscallReplyV pid words opened) s Q (Unless False) := by
  unfold syscallReplyV
  rw [wp_bind, wp_get]
  cases hp : s.files.sosProcs pid with
  | placeholder => exact wp_throw.mpr (Unless.of_ne (by decide))
  | null | pcb p => exact wp_modify.mpr h

theorem wp_syscallReply {rval : Int}
    (h : Q () (s.replied pid [rval])) : Wp (syscallReply pid rval) s Q (Unless False) :=
  wp_syscallReplyV h

theorem getVfile_spec (fd : Int) (ipc : Bool) :
    Wp (getVfile pid fd ipc) s (fun r s' =>
      match r with
      | some (p, i) => s' = s ∧ s.OpenFd pid fd p i
      | none => s' = (if ipc then s.replied pid [vfsNofile] else s) ∧ s.NotOpen pid fd)
      (Unless False) := by
  unfold getVfile
  rw [wp_bind, wp_get]
  cases hp : s.files.sosProcs pid with
  | null =>
    refine wp_pure.mpr ⟨?_, by simp [NotOpen, process?, hp, Slot.pcb?]⟩
    rw [replied_of_not_pcb (by rw [hp]; rfl), ite_self]
  | placeholder => exact wp_throw.mpr (Unless.of_ne (by decide))
  | pcb p =>
    dsimp only
    cases hi : p.vfile? fd with
    | some i => exact wp_pure.mpr ⟨rfl, hp, hi⟩
    | none =>
      have hnot : s.NotOpen pid fd := by simp [NotOpen, process?, hp, Slot.pcb?, hi]
      dsimp only
      rw [wp_ite]
      refine ⟨fun hipc => ?_, fun hipc => wp_pure.mpr ⟨by simp [hipc], hnot⟩⟩
      rw [wp_bind]
      exact wp_syscallReply (wp_pure.mpr ⟨by simp [hipc], hnot⟩)

/-! ## Freeing vnodes -/

theorem wp_modifyFiles {f : Files → Files} :
    Wp (modifyFiles f) s Q E ↔ Q () (s.withFiles (f s.files)) := wp_modify

theorem wp_modifyNfs {f : Nfs → Nfs} :
    Wp (modifyNfs f) s Q E ↔ Q () { s with nfs := f s.nfs } := wp_modify

theorem freeVnode_spec (a : Nat) :
    Wp (freeVnode a) s (fun _ s' => s' = s.withFiles (s.files.freed a) ∧ s.files.Freeable a)
      (Unless ((s.files.vnodes a).extra = .consoleFile)) := by
  unfold freeVnode
  rw [wp_bind, wp_get, wp_ite]
  refine ⟨fun hc => wp_throw.mpr fun _ => hc, fun hc => ?_⟩
  rw [wp_bind, wp_modifyFiles, wp_bind, wp_get, wp_ite]
  refine ⟨fun ha => wp_modifyFiles.mpr ⟨rfl, hc, ha⟩, fun _ => wp_throw.mpr ?_⟩
  exact Unless.of_ne (by decide)

/-- The vnode of an open that has failed is dropped, unless somebody has it open. -/
def Errs (s : Files) (a : Nat) : Prop := (s.vnodes a).unused → s.Freeable a

theorem vfsOpenErr_spec (a : Nat) :
    Wp (vfsOpenErr a) s
      (fun _ s' => s' = s.withFiles (s.files.openErr a) ∧ Errs s.files a)
      (Unless ((s.files.vnodes a).unused ∧ (s.files.vnodes a).extra = .consoleFile)) := by
  unfold vfsOpenErr Files.openErr
  rw [wp_bind, wp_get, wp_ite]
  refine ⟨fun hu => ?_, fun hu => wp_pure.mpr ⟨by rw [if_neg hu]; rfl, fun h => absurd h hu⟩⟩
  rw [wp_bind, wp_modifyFiles]
  have hextra := (s.files.relinked_removeVnode a).extra a
  refine (freeVnode_spec a).mono ?_ (Unless.mono fun h => ⟨hu, ?_⟩)
  · rintro _ s' ⟨rfl, hc, ha⟩
    rw [if_pos hu]
    refine ⟨rfl, fun _ => ⟨?_, ?_⟩⟩
    · rw [← hextra]
      exact hc
    · rw [← (s.files.relinked_removeVnode a).allocated]
      exact ha
  · rw [← hextra]
    exact h

/-! ## Opening -/

/-- `vfs_open_done`. The process is gone; the file system has failed or a lock refuses the open;
the tables are full; or the file is open. -/
inductive OpenDone (s : Vfs) (pid : Pid) (a mode : Nat) (status : Int) : Vfs → Prop
  | gone : s.files.sosProcs pid = .null → Errs s.files a →
      OpenDone s pid a mode status (s.withFiles (s.files.openErr a))
  | failed {p rval} : s.files.sosProcs pid = .pcb p → Errs s.files a →
      (status ≠ vfsOk ∧ rval = status ∨
        status = vfsOk ∧ (s.files.vnodes a).increaseRefs mode = .error rval) →
      OpenDone s pid a mode status ((s.withFiles (s.files.openErr a)).replied pid [rval])
  | full {p v} : s.files.sosProcs pid = .pcb p → status = vfsOk →
      (s.files.vnodes a).increaseRefs mode = .ok v → p.findNextFd = none →
      Errs (s.files.setVnode a (v.decreaseRefs mode)) a →
      OpenDone s pid a mode status ((s.withFiles
        ((s.files.setVnode a (v.decreaseRefs mode)).openErr a)).replied pid [vfsNomore])
  | done {p v fd i} : s.files.sosProcs pid = .pcb p → status = vfsOk →
      (s.files.vnodes a).increaseRefs mode = .ok v → p.findNextFd = some (fd, i) →
      OpenDone s pid a mode status
        ((s.withFiles (s.files.install pid p fd i a mode v)).replied pid [(fd : Int)] (some a))

/-- Nothing but the vnodes, the tables and the replies has changed. -/
structure Frame (s t : Vfs) : Prop where
  nfs : t.nfs = s.nfs
  console : t.console = s.console
  caller : t.caller = s.caller
  calls : t.calls = s.calls
  incs : t.incs = s.incs

theorem frame_replied (s : Vfs) (f : Files) (pid : Pid) (words : List Int) (opened : Option Nat) :
    Frame s ((s.withFiles f).replied pid words opened) := by
  unfold replied
  split <;> exact ⟨rfl, rfl, rfl, rfl, rfl⟩

theorem OpenDone.frame {status : Int} (h : OpenDone s pid a mode status t) : Frame s t := by
  cases h with
  | gone => exact ⟨rfl, rfl, rfl, rfl, rfl⟩
  | failed | full | done => exact frame_replied ..

/-- `vfs_open_done` finds no reader or writer of the vnode and gives it up. -/
def GivesUp (s : Vfs) (pid : Pid) (a mode : Nat) (status : Int) : Prop :=
  (s.files.vnodes a).unused ∧
    (s.files.sosProcs pid = .null ∨ status ≠ vfsOk ∨
      ∃ rval, (s.files.vnodes a).increaseRefs mode = .error rval) ∨
  ∃ p v, s.files.sosProcs pid = .pcb p ∧ (s.files.vnodes a).increaseRefs mode = .ok v ∧
    p.findNextFd = none ∧ (v.decreaseRefs mode).unused

theorem vfsOpenDone_spec (pid : Pid) (a mode : Nat) (status : Int) :
    Wp (vfsOpenDone pid a mode status) s (fun _ => OpenDone s pid a mode status)
      (Unless ((s.files.vnodes a).extra = .consoleFile ∧ s.GivesUp pid a mode status)) := by
  unfold vfsOpenDone
  rw [wp_bind, wp_get]
  cases hp : s.files.sosProcs pid with
  | placeholder => exact wp_throw.mpr (Unless.of_ne (by decide))
  | null =>
    refine (vfsOpenErr_spec a).mono ?_ (Unless.mono fun h => ⟨h.2, .inl ⟨h.1, .inl hp⟩⟩)
    rintro _ s' ⟨rfl, he⟩
    exact .gone hp he
  | pcb p =>
    dsimp only
    rw [wp_ite]
    refine ⟨fun hst => ?_, fun hst => ?_⟩
    · rw [wp_bind]
      refine (vfsOpenErr_spec a).mono ?_ (Unless.mono fun h => ⟨h.2, .inl ⟨h.1, .inr (.inl hst)⟩⟩)
      rintro _ s' ⟨rfl, he⟩
      exact (wp_syscallReply (.failed hp he (.inl ⟨hst, rfl⟩))).mono (fun _ _ h => h)
        (Unless.mono False.elim)
    · have hok : status = vfsOk := not_not.mp hst
      cases hv : (s.files.vnodes a).increaseRefs mode with
      | error rval =>
        dsimp only
        rw [wp_bind]
        refine (vfsOpenErr_spec a).mono ?_
          (Unless.mono fun h => ⟨h.2, .inl ⟨h.1, .inr (.inr ⟨rval, hv⟩)⟩⟩)
        rintro _ s' ⟨rfl, he⟩
        exact (wp_syscallReply (.failed hp he (.inr ⟨hok, hv⟩))).mono (fun _ _ h => h)
          (Unless.mono False.elim)
      | ok v =>
        dsimp only
        rw [wp_bind, wp_modifyFiles]
        cases hfd : p.findNextFd with
        | none =>
          dsimp only
          have hset : ((s.withFiles (s.files.setVnode a v)).withFiles
              ((s.files.setVnode a v).setVnode a (v.decreaseRefs mode))) =
              s.withFiles (s.files.setVnode a (v.decreaseRefs mode)) := by
            simp [withFiles, Files.setVnode]
          rw [wp_bind, wp_modifyFiles, wp_bind]
          change Wp _ ((s.withFiles (s.files.setVnode a v)).withFiles
              ((s.files.setVnode a v).setVnode a (v.decreaseRefs mode))) _ _
          rw [hset]
          refine (vfsOpenErr_spec a).mono ?_
            (Unless.mono fun h => ⟨?_, .inr ⟨p, v, hp, hv, hfd, ?_⟩⟩)
          · rintro _ s' ⟨rfl, he⟩
            exact (wp_syscallReply (.full hp hok hv hfd he)).mono (fun _ _ h => h)
              (Unless.mono False.elim)
          · rw [← VNode.increaseRefs_extra hv]
            simpa [withFiles, Files.setVnode, VNode.decreaseRefs] using h.2
          · simpa [withFiles, Files.setVnode] using h.1
        | some x =>
          obtain ⟨fd, i⟩ := x
          dsimp only
          rw [wp_bind, wp_modifyFiles]
          exact (wp_syscallReplyV (.done hp hok hv hfd)).mono (fun _ _ h => h)
            (Unless.mono False.elim)

/-! ## Requests -/

theorem runRequest_spec (rq : NfsRequest) :
    Wp (runRequest rq) s (fun _ s' => s' = { s with nfs := s.nfs.start s.files rq }) E := by
  unfold runRequest issue
  rw [wp_bind, wp_get, wp_bind, wp_modifyNfs, wp_modifyNfs]
  rfl

theorem createRequest_spec (pid : Pid) (rt : RequestType) :
    Wp (createRequest pid rt) s (fun rq s' => rq = s.nfs.newRequest pid rt s.caller ∧
      s' = { s with nfs := s.nfs.create pid rt s.caller }) E := by
  unfold createRequest
  rw [wp_bind, wp_get, wp_bind, wp_modifyNfs, wp_pure]
  exact ⟨rfl, rfl⟩

theorem request_spec (pid : Pid) (rt : RequestType) :
    Wp (request pid rt) s (fun _ s' => s' = s.requested pid rt) E := by
  unfold request checkRequest
  rw [wp_bind]
  refine (createRequest_spec pid rt).imp ?_
  rintro _ s' ⟨rfl, rfl⟩
  rw [wp_bind, wp_get]
  cases hr : s.nfs.requests with
  | nil =>
    have hs : s.requested pid rt = { s with nfs :=
        (s.nfs.create pid rt s.caller).start s.files (s.nfs.newRequest pid rt s.caller) } := by
      unfold requested Nfs.request
      rw [hr]
    have hreq : (s.nfs.create pid rt s.caller).requests = [s.nfs.newRequest pid rt s.caller] := by
      simp [Nfs.create, hr]
    rw [hs, hreq]
    dsimp only
    rw [if_pos rfl]
    exact runRequest_spec _
  | cons head rs =>
    have hs : s.requested pid rt = { s with nfs :=
        (if head.id = s.nfs.created then (s.nfs.create pid rt s.caller).start s.files head
        else s.nfs.create pid rt s.caller) } := by
      unfold requested Nfs.request
      rw [hr]
    have hreq : (s.nfs.create pid rt s.caller).requests =
        head :: (rs ++ [s.nfs.newRequest pid rt s.caller]) := by
      simp [Nfs.create, hr]
    rw [hs, hreq]
    change Wp (if head.id = s.nfs.created then runRequest head else pure ()) _ _ _
    by_cases hid : head.id = s.nfs.created
    · rw [if_pos hid, if_pos hid]
      exact runRequest_spec _
    · rw [if_neg hid, if_neg hid]
      exact wp_pure.mpr rfl

theorem removeRequest_spec (rq : NfsRequest) :
    Wp (removeRequest rq) s (fun _ s' => s' = s.removed rq) E := by
  unfold removeRequest runHeadRequest removed Nfs.remove Nfs.startHead
  rw [wp_bind, wp_modifyNfs, wp_bind, wp_get]
  dsimp only
  cases s.nfs.requests.eraseP (·.token = rq.token) with
  | nil => exact wp_pure.mpr rfl
  | cons head rs => exact runRequest_spec head

/-- `vfs_open` makes a vnode that its own locks do not let it open. -/
def LockedOut (mode readers writers : Nat) : Prop :=
  reads mode = true ∧ readers = 0 ∨ writes mode = true ∧ writers = 0

instance (mode readers writers : Nat) : Decidable (LockedOut mode readers writers) :=
  inferInstanceAs (Decidable (_ ∨ _))

/-- `vfs_open`. The last case is that of locks the open itself exceeds: the new vnode has been freed
and the error replied when the lookup is requested and the vnode linked. -/
inductive Opened (s : Vfs) (pid : Pid) (path : Path) (mode readers writers block : Nat) :
    Vfs → Prop
  | null : s.files.sosProcs pid = .null → Opened s pid path mode readers writers block s
  | refused {p rval} : s.files.sosProcs pid = .pcb p → rval < 0 →
      Opened s pid path mode readers writers block (s.replied pid [rval])
  | shared {p path' a t} : s.files.sosProcs pid = .pcb p → openPath p path mode = .ok path' →
      s.files.findVnode path' = some (some a) →
      readers = fmUnlimitedRw ∧ writers = fmUnlimitedRw → OpenDone s pid a mode vfsOk t →
      Opened s pid path mode readers writers block t
  | made {p path' f} : s.files.sosProcs pid = .pcb p → openPath p path mode = .ok path' →
      s.files.findVnode path' = some none → ¬ LockedOut mode readers writers →
      f = s.files.made block path' readers writers →
      Opened s pid path mode readers writers block
        (((s.withFiles f).requested pid (.lookup block mode)).withFiles (f.addVnode block))
  | lockedOut {p path' f} : s.files.sosProcs pid = .pcb p → openPath p path mode = .ok path' →
      s.files.findVnode path' = some none → LockedOut mode readers writers →
      f = { s.files.made block path' readers writers with
        allocated := Function.update s.files.allocated block false } →
      Opened s pid path mode readers writers block
        ((((s.replied pid [vfsError]).withFiles f).requested pid (.lookup block mode)).withFiles
          (f.addVnode block))

theorem openPath_error_neg {path : Path} {rval : Int}
    (h : openPath p path mode = .error rval) : rval < 0 := by
  unfold openPath at h
  split at h
  · obtain rfl := Except.error.inj h; decide
  · split at h
    · obtain rfl := Except.error.inj h; decide
    · split at h
      · obtain rfl := Except.error.inj h; decide
      · split at h <;> simp at h

/-- The vnode that is about to be shared is given up instead. -/
def GivesUpShared (s : Vfs) (pid : Pid) (path : Path) (mode readers writers : Nat) : Prop :=
  ∃ p path' a, s.files.sosProcs pid = .pcb p ∧ openPath p path mode = .ok path' ∧
    s.files.findVnode path' = some (some a) ∧
    (readers = fmUnlimitedRw ∧ writers = fmUnlimitedRw) ∧
    (s.files.vnodes a).extra = .consoleFile ∧ s.GivesUp pid a mode vfsOk

/-- The test of the locks on the new vnode fails. -/
theorem increaseRefs_limited_error (f : Files) (block : Nat) {mode readers writers : Nat}
    (h : LockedOut mode readers writers) :
    ∃ rval, ((f.limited block readers writers).vnodes block).increaseRefs mode = .error rval := by
  have hunl : (0 : Nat) ≠ fmUnlimitedRw := by decide
  unfold VNode.increaseRefs
  simp only [Files.limited, Files.newVnode, Files.setVnode_vnodes_self, Nat.le_zero]
  rcases h with ⟨hm, rfl⟩ | ⟨hm, rfl⟩
  · rw [if_pos ⟨hm, rfl, hunl⟩]
    exact ⟨_, rfl⟩
  · by_cases hr : reads mode = true ∧ readers = 0 ∧ readers ≠ fmUnlimitedRw
    · rw [if_pos hr]
      exact ⟨_, rfl⟩
    · rw [if_neg hr, if_pos ⟨hm, rfl, hunl⟩]
      exact ⟨_, rfl⟩

/-- The test of the locks on the new vnode succeeds. -/
theorem increaseRefs_limited_ok (f : Files) (block : Nat) {mode readers writers : Nat}
    (h : ¬ LockedOut mode readers writers) :
    ∃ r w, ((f.limited block readers writers).vnodes block).increaseRefs mode =
      .ok { (f.limited block readers writers).vnodes block with readers := r, writers := w } := by
  unfold VNode.increaseRefs
  simp only [Files.limited, Files.newVnode, Files.setVnode_vnodes_self, Nat.le_zero]
  rw [if_neg fun hr => h (.inl ⟨hr.1, hr.2.1⟩), if_neg fun hw => h (.inr ⟨hw.1, hw.2.1⟩)]
  exact ⟨_, _, rfl⟩

/-- The end of `vfs_open` for a new vnode. -/
theorem linkNew_spec (pid : Pid) (block : Nat) (path : Path) (mode : Nat) :
    Wp (do
      modifyFiles fun s => s.setVnode block { s.vnodes block with readers := 0, writers := 0 }
      nfsfsOpen pid block path mode
      modifyFiles fun s => s.addVnode block) s
      (fun _ s' => s' = ((s.withFiles (s.files.opening block path)).requested pid
        (.lookup block mode)).withFiles ((s.files.opening block path).addVnode block)) E := by
  unfold nfsfsOpen
  rw [wp_bind, wp_modifyFiles, wp_bind, wp_bind, wp_modifyFiles]
  have hf : (s.withFiles (s.files.setVnode block { s.files.vnodes block with
      readers := 0, writers := 0 })).withFiles ((s.files.setVnode block { s.files.vnodes block with
      readers := 0, writers := 0 }).opening block path) =
        s.withFiles (s.files.opening block path) := by
    simp [withFiles, Files.opening]
  change Wp _ ((s.withFiles (s.files.setVnode block { s.files.vnodes block with
      readers := 0, writers := 0 })).withFiles ((s.files.setVnode block { s.files.vnodes block with
      readers := 0, writers := 0 }).opening block path)) _ _
  rw [hf]
  refine (request_spec pid (.lookup block mode)).imp ?_
  rintro _ s' rfl
  rw [wp_modifyFiles]
  rfl

theorem vfsOpen_spec (pid : Pid) (path : Path) (mode readers writers block : Nat)
 :
    Wp (vfsOpen pid path mode readers writers block) s
      (fun _ => Opened s pid path mode readers writers block)
      (Unless (s.GivesUpShared pid path mode readers writers)) := by
  unfold vfsOpen
  rw [wp_bind, wp_get]
  cases hp : s.files.sosProcs pid with
  | null => exact wp_pure.mpr (.null hp)
  | placeholder => exact wp_throw.mpr (Unless.of_ne (by decide))
  | pcb p =>
    dsimp only
    cases hpath : openPath p path mode with
    | error rval =>
      exact (wp_syscallReply (.refused hp (openPath_error_neg hpath))).mono (fun _ _ h => h)
        (Unless.mono False.elim)
    | ok path' =>
      dsimp only
      unfold Vfs.findVnode
      rw [wp_bind, wp_bind, wp_get]
      cases hfind : s.files.findVnode path' with
      | none => exact wp_throw.mpr (Unless.of_ne (by decide))
      | some r =>
        dsimp only
        rw [wp_pure]
        cases r with
        | some a =>
          dsimp only
          rw [wp_ite]
          refine ⟨fun hlocks => ?_, fun _ => ?_⟩
          · refine (vfsOpenDone_spec pid a mode vfsOk).mono
              (fun _ t ht => .shared hp hpath hfind hlocks ht)
              (Unless.mono fun hs => ⟨p, path', a, hp, hpath, hfind, hlocks, hs⟩)
          · exact (wp_syscallReply (.refused hp (by decide))).mono (fun _ _ h => h)
              (Unless.mono False.elim)
        | none =>
          dsimp only
          rw [wp_bind, wp_modifyFiles, wp_bind, wp_modifyFiles]
          change Wp _ (s.withFiles (s.files.limited block readers writers)) _ _
          rw [wp_bind, wp_get, withFiles_files]
          by_cases hlock : LockedOut mode readers writers
          · obtain ⟨rval, hrefs⟩ := increaseRefs_limited_error s.files block hlock
            rw [hrefs]
            dsimp only
            rw [wp_bind]
            refine (freeVnode_spec block).mono ?_ (Unless.mono fun h => ?_)
            · rintro _ s' ⟨rfl, -⟩
              rw [wp_bind]
              refine (wp_syscallReply ?_).mono (fun _ _ h => h) (Unless.mono False.elim)
              change Wp _
                ((s.withFiles ((s.files.limited block readers writers).freed block)).replied
                pid [vfsError] none) _ _
              have hsame : ((s.files.limited block readers writers).freed block).sosProcs =
                  s.files.sosProcs := rfl
              rw [replied_withFiles hsame]
              refine (linkNew_spec pid block path' mode).imp ?_
              rintro _ s' rfl
              refine .lockedOut hp hpath hfind hlock ?_
              change ((s.files.limited block readers writers).freed block).opening block path' = _
              simp [Files.made, Files.opening, Files.freed, Files.freeNfsfile, Files.limited,
                Files.setVnode, Files.newVnode]
            · simp [withFiles, Files.limited, Files.newVnode] at h
          · obtain ⟨r, w, hrefs⟩ := increaseRefs_limited_ok s.files block hlock
            rw [hrefs]
            dsimp only
            rw [wp_bind, wp_modifyFiles]
            refine (linkNew_spec pid block path' mode).imp ?_
            rintro _ s' rfl
            refine .made hp hpath hfind hlock ?_
            change (((s.files.limited block readers writers).setVnode block _).opening block
              path') = _
            simp [Files.opening, Files.made]

/-! ## Closing -/

/-- `vfs_close`: the descriptor is not open; others have the vnode open; the vnode goes with its
last user; or the vnode is the console, which stays. -/
inductive Closed (s : Vfs) (pid : Pid) (fd : Int) : Vfs → Prop
  | notOpen : s.NotOpen pid fd → Closed s pid fd s
  | kept {p i a f} : s.OpenFd pid fd p i → (p.files i).vnode = some a →
      f = s.files.unname pid p fd i a → ¬ (f.vnodes a).unused →
      Closed s pid fd ((s.withFiles f).replied pid [vfsOk])
  | last {p i a f} : s.OpenFd pid fd p i → (p.files i).vnode = some a →
      f = s.files.unname pid p fd i a → (f.vnodes a).unused → (f.vnodes a).fs = .nfs →
      f.allocated a = true →
      Closed s pid fd ((s.withFiles ((f.freeNfsfile a).drop a)).replied pid [vfsOk])
  | console {p i a f} : s.OpenFd pid fd p i → (p.files i).vnode = some a →
      f = s.files.unname pid p fd i a → (f.vnodes a).unused → (f.vnodes a).fs = .console →
      Closed s pid fd ((s.withFiles f).replied pid [vfsNotimp])

theorem nfsfsClose_spec (pid : Pid) (a : Nat) :
    Wp (nfsfsClose pid a) s (fun _ s' => s.files.allocated a = true ∧
      s' = (s.withFiles ((s.files.freeNfsfile a).drop a)).replied pid [vfsOk]) (Unless False) := by
  unfold nfsfsClose vfsCloseDone
  rw [wp_bind, wp_modifyFiles]
  dsimp only
  rw [if_pos rfl, wp_bind, wp_modifyFiles, wp_bind]
  have hrel := (s.files.freeNfsfile a).relinked_removeVnode a
  refine (freeVnode_spec a).mono ?_ (Unless.mono fun h => ?_)
  · rintro _ s' ⟨rfl, -, halloc⟩
    have halloc' : ((s.files.freeNfsfile a).removeVnode a).allocated a = true := halloc
    rw [hrel.allocated] at halloc'
    exact wp_syscallReply ⟨halloc', rfl⟩
  · have hnull : (((s.files.freeNfsfile a).removeVnode a).vnodes a).extra = .consoleFile := h
    rw [hrel.extra] at hnull
    simp [Files.freeNfsfile] at hnull

/-- The second half of `vfs_close`. -/
theorem closeVnode_spec (ho : s.OpenFd pid fd p i) (ha : (p.files i).vnode = some a) :
    Wp (do
      let v := (← get).files.vnodes a
      if v.unused then
        match v.fs with
        | .null => throw .nullPointer
        | .nfs => nfsfsClose pid a
        | .console => consoleClose pid a
      else syscallReply pid vfsOk) (s.withFiles (s.files.unname pid p fd i a))
      (fun _ => Closed s pid fd) (Unless False) := by
  rw [wp_bind, wp_get]
  dsimp only
  rw [wp_ite]
  refine ⟨fun hu => ?_, fun hu => wp_syscallReply (.kept ho ha rfl hu)⟩
  cases hfs : ((s.files.unname pid p fd i a).vnodes a).fs with
  | null =>
    simp only [withFiles, hfs]
    exact wp_throw.mpr (Unless.of_ne (by decide))
  | nfs =>
    simp only [withFiles, hfs]
    refine (nfsfsClose_spec pid a).imp ?_
    rintro _ s' ⟨halloc, rfl⟩
    exact .last ho ha rfl hu hfs halloc
  | console =>
    simp only [withFiles, hfs]
    unfold consoleClose vfsCloseDone
    dsimp only
    rw [if_neg (by decide)]
    exact wp_syscallReply (.console ho ha rfl hu hfs)

theorem vfsClose_spec (pid : Pid) (fd : Int) :
    Wp (vfsClose pid fd) s (fun _ => Closed s pid fd) (Unless False) := by
  unfold vfsClose
  rw [wp_bind]
  refine (getVfile_spec fd false).imp ?_
  rintro r s' h
  cases r with
  | none =>
    obtain ⟨rfl, hn⟩ := h
    exact wp_pure.mpr (.notOpen hn)
  | some x =>
    obtain ⟨p, i⟩ := x
    obtain ⟨rfl, ho⟩ := h
    obtain ⟨a, ha⟩ := ho.vnode
    have hrest := closeVnode_spec ho ha
    dsimp only
    rw [ha]
    dsimp only
    unfold Files.unname Process.forget at hrest
    by_cases href : ((p.files i).ref - 1) % wordLimit = 0
    · rw [if_pos href, if_pos href] at hrest
      rw [if_pos href, wp_bind, wp_modifyFiles]
      exact hrest
    · rw [if_neg href, if_neg href] at hrest
      dsimp only at hrest
      rw [ha] at hrest
      rw [if_neg href, wp_bind, wp_modifyFiles]
      exact hrest

theorem Closed.frame (h : Closed s pid fd t) : Frame s t := by
  cases h with
  | notOpen => exact ⟨rfl, rfl, rfl, rfl, rfl⟩
  | kept | last | console => exact frame_replied ..

end Vfs

end Sos
