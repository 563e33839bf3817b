import Sos.Vfs.Outcomes

/-!
# What a step does

The outcomes of the calls that open and close nothing, of `vfs_dup`, of the callbacks of the NFS
library and of the serial line, and from them those of every message (`handle_spec`).
-/

namespace Sos

open Hoare

variable {token : Nat} {ans : RpcAnswer} {rq : NfsRequest} {m : VfsM Unit} {f : Files} {fd : Int}
  {Q : Unit → Vfs → Prop}

/-- `fds[fdup] = fds[forig]; files[i].ref++` -/
def Files.dupTo (s : Files) (pid : Pid) (forig fdup : Int) (i : Fin 16) : Files :=
  (s.upd pid fun p => p.setFd fdup ((p.fdFile? forig).getD vfsNilFile)).upd pid fun p =>
    p.setFile i { p.files i with ref := ((p.files i).ref + 1) % wordLimit }

/-- What a successful lookup tells about the vnode. -/
def Files.filled (s : Files) (a : Nat) (ans : RpcAnswer) : Files :=
  (s.setVnode a { s.vnodes a with extra := .nfsFile (some ans.fh) }).cpStats a ans.attr

namespace Vfs

variable {s t : Vfs} {pid : Pid} {a b mode : Nat} {E : VfsFault → Vfs → Prop}

/-! ## The calls that leave the vnodes in place -/

/-- A request of a process other than a lookup: a read or write is on an open file, and a directory
is read from its beginning. -/
def Asks (s : Vfs) (pid : Pid) : RequestType → Prop
  | .lookup .. => False
  | .read a fd .. | .write a fd .. => ∃ p i, s.OpenFd pid fd p i ∧ (p.files i).vnode = some a ∧
      (s.files.vnodes a).fs = .nfs ∧ (s.files.vnodes a).extra ≠ .null
  | .dir pos _ cpos => cpos ≤ pos
  | _ => True

/-- A call is answered: only file positions, attributes and the buffer of the console may have
changed. -/
def Answers (s : Vfs) (pid : Pid) (t : Vfs) : Prop :=
  ∃ f n words, s.files.Quiet f ∧
    t = ({ s with files := f, console := { s.console with bufUsed := n } } : Vfs).replied pid words

/-- `vfs_read`, `vfs_write`, `vfs_flush`, `vfs_lseek`, `vfs_getdirent`, `vfs_stat` and `vfs_remove`:
the call is answered, a request is made, or the process becomes the reader of the console. No answer
is given under the condition `silent`. -/
inductive Called (s : Vfs) (pid : Pid) (silent : Prop) : Vfs → Prop
  | silent : silent → Called s pid silent s
  | answered {u} : Answers s pid u → Called s pid silent u
  | requested {rt} : Asks s pid rt → Called s pid silent (s.requested pid rt)
  | reader {r} : s.console.reader = none → r.pid = pid → r.caller = s.caller →
      Called s pid silent { s with console := { s.console with reader := some r } }

theorem Answers.replied (s : Vfs) (pid : Pid) (words : List Int) :
    Answers s pid (s.replied pid words) :=
  ⟨s.files, s.console.bufUsed, words, .refl _, rfl⟩

theorem Answers.replied_of_quiet (h : s.files.Quiet f) (words : List Int) :
    Answers s pid ((s.withFiles f).replied pid words) :=
  ⟨f, s.console.bufUsed, words, h, rfl⟩

/-- The answer of a call after the attributes of a vnode have been set. -/
theorem Answers.of_quiet (hf : s.files.Quiet f) (h : Answers (s.withFiles f) pid t) :
    Answers s pid t := by
  obtain ⟨g, n, words, hg, rfl⟩ := h
  exact ⟨g, n, words, hf.trans hg, rfl⟩

theorem Answers.frame (h : Answers s pid t) :
    ∃ n, Frame { s with console := { s.console with bufUsed := n } } t := by
  obtain ⟨f, n, words, -, rfl⟩ := h
  exact ⟨n, frame_replied { s with console := { s.console with bufUsed := n } } f pid words none⟩

theorem Answers.nfs (h : Answers s pid t) : t.nfs = s.nfs := by
  obtain ⟨n, hf⟩ := h.frame
  exact hf.nfs

theorem wp_answer {rval : Int} : Wp (syscallReply pid rval) s (fun _ => Answers s pid)
    (Unless False) := wp_syscallReply (.replied s pid [rval])

/-- The functions that begin with a descriptor. -/
theorem wp_getVfile {m : Option (Process × Fin 16) → VfsM Unit} {Q : Vfs → Prop}
    (hQ : ∀ t, Answers s pid t → Q t) (hn : m none = pure ())
    (h : ∀ p i, s.OpenFd pid fd p i → Wp (m (some (p, i))) s (fun _ => Q) (Unless False)) :
    Wp (getVfile pid fd true >>= m) s (fun _ => Q) (Unless False) := by
  rw [wp_bind]
  refine (getVfile_spec fd true).imp ?_
  rintro r s' hr
  cases r with
  | none =>
    obtain ⟨rfl, -⟩ := hr
    rw [hn]
    exact wp_pure.mpr (hQ _ (.replied s pid _))
  | some x =>
    obtain ⟨rfl, ho⟩ := hr
    exact h x.1 x.2 ho

theorem vfsReadDone_spec (pid : Pid) (fd : Int) (nbyte status : Int) :
    Wp (vfsReadDone pid fd nbyte status) s (fun _ => Answers s pid) (Unless False) := by
  unfold vfsReadDone advance
  refine wp_getVfile (fun _ h => h) rfl fun p i ho => ?_
  dsimp only
  rw [wp_ite]
  refine ⟨fun _ => wp_answer, fun _ => ?_⟩
  rw [wp_bind, wp_modifyFiles]
  exact wp_syscallReply (.replied_of_quiet (.seek ho.1 i _) _)

theorem vfsWriteDone_spec (pid : Pid) (fd : Int) (nbyte status : Int) :
    Wp (vfsWriteDone pid fd nbyte status) s (fun _ => Answers s pid) (Unless False) := by
  unfold vfsWriteDone advance
  rw [wp_ite]
  refine ⟨fun _ => wp_answer, fun _ => ?_⟩
  refine wp_getVfile (fun _ h => h) rfl fun p i ho => ?_
  dsimp only
  rw [wp_bind, wp_modifyFiles]
  exact wp_syscallReplyV (.replied_of_quiet (.seek ho.1 i _) _)

theorem wp_modifyConsole {f : Console → Console} :
    Wp (modifyConsole f) s Q E ↔ Q () { s with console := f s.console } := wp_modify

theorem called_of_answers {silent : Prop} (h : Wp m s (fun _ => Answers s pid) (Unless False)) :
    Wp m s (fun _ => Called s pid silent) (Unless False) :=
  h.imp fun _ _ => .answered

theorem vfsRead_spec (pid : Pid) (fd : Int) (nbyte : Nat) :
    Wp (vfsRead pid fd nbyte) s (fun _ => Called s pid False) (Unless False) := by
  unfold vfsRead
  refine wp_getVfile (fun _ => .answered) rfl fun p i ho => ?_
  obtain ⟨a, ha⟩ := ho.vnode
  dsimp only
  rw [wp_ite]
  refine ⟨fun _ => called_of_answers wp_answer, fun _ => ?_⟩
  rw [ha]
  dsimp only
  rw [wp_bind, wp_get]
  cases hfs : (s.files.vnodes a).fs with
  | null => exact wp_throw.mpr (Unless.of_ne (by decide))
  | nfs =>
    dsimp only
    unfold nfsfsRead
    rw [wp_bind, wp_get, wp_ite]
    refine ⟨fun _ => called_of_answers (vfsReadDone_spec ..), fun he => (request_spec ..).imp ?_⟩
    rintro _ s' rfl
    exact .requested ⟨p, i, ho, ha, hfs, he⟩
  | console =>
    dsimp only
    unfold consoleRead
    rw [wp_bind, wp_get, wp_ite]
    refine ⟨fun _ => called_of_answers (vfsReadDone_spec ..), fun _ => ?_⟩
    rw [wp_ite]
    refine ⟨fun _ => called_of_answers (vfsReadDone_spec ..), fun hr => wp_modifyConsole.mpr ?_⟩
    exact .reader (by simpa using hr) rfl rfl

theorem vfsWrite_spec (pid : Pid) (fd : Int) (nbyte : Nat) (newline : Bool) (sends : List Int) :
    Wp (vfsWrite pid fd nbyte newline sends) s (fun _ => Called s pid False) (Unless False) := by
  unfold vfsWrite
  refine wp_getVfile (fun _ => .answered) rfl fun p i ho => ?_
  obtain ⟨a, ha⟩ := ho.vnode
  dsimp only
  rw [wp_ite]
  refine ⟨fun _ => called_of_answers wp_answer, fun _ => ?_⟩
  rw [ha]
  dsimp only
  rw [wp_bind, wp_get]
  cases hfs : (s.files.vnodes a).fs with
  | null => exact wp_throw.mpr (Unless.of_ne (by decide))
  | nfs =>
    dsimp only
    unfold nfsfsWrite
    rw [wp_bind, wp_get, wp_ite]
    refine ⟨fun _ => called_of_answers (vfsWriteDone_spec ..), fun he => (request_spec ..).imp ?_⟩
    rintro _ s' rfl
    exact .requested ⟨p, i, ho, ha, hfs, he⟩
  | console =>
    dsimp only
    unfold consoleWrite
    rw [wp_bind, wp_get]
    dsimp only
    rw [wp_ite]
    refine ⟨fun _ => called_of_answers (vfsWriteDone_spec ..), fun _ => ?_⟩
    rw [wp_bind, wp_modifyConsole]
    refine (vfsWriteDone_spec ..).imp ?_
    rintro _ s' ⟨f, n, words, hf, rfl⟩
    exact .answered ⟨f, n, words, hf, rfl⟩

/-- A flush that is not answered: of a descriptor that is not open, or of a console without its
file. -/
def SilentFlush (s : Vfs) (pid : Pid) (fd : Int) : Prop :=
  s.NotOpen pid fd ∨ ∃ p i a, s.OpenFd pid fd p i ∧ (p.files i).vnode = some a ∧
    (s.files.vnodes a).fs = .console ∧ (s.files.vnodes a).extra = .null

/-- The call does not have to wait. -/
def AtOnce (s t : Vfs) : Prop := t.nfs = s.nfs ∧ t.console.reader = s.console.reader

theorem Answers.atOnce (h : Answers s pid t) : AtOnce s t := by
  obtain ⟨n, hf⟩ := h.frame
  exact ⟨hf.nfs, by rw [hf.console]⟩

theorem vfsFlush_spec (pid : Pid) (fd : Int) (sends : List Int) :
    Wp (vfsFlush pid fd sends) s
      (fun _ t => Called s pid (s.SilentFlush pid fd) t ∧ AtOnce s t) (Unless False) := by
  unfold vfsFlush
  rw [wp_bind]
  refine (getVfile_spec fd false).imp ?_
  rintro r s' hr
  cases r with
  | none =>
    obtain ⟨rfl, hn⟩ := hr
    exact wp_pure.mpr ⟨.silent (.inl hn), rfl, rfl⟩
  | some x =>
    obtain ⟨p, i⟩ := x
    obtain ⟨rfl, ho⟩ := hr
    obtain ⟨a, ha⟩ := ho.vnode
    dsimp only
    rw [ha]
    dsimp only
    rw [wp_bind, wp_get]
    cases hfs : (s'.files.vnodes a).fs with
    | null => exact wp_throw.mpr (Unless.of_ne (by decide))
    | nfs => exact wp_answer.imp fun _ _ h => ⟨.answered h, h.atOnce⟩
    | console =>
      dsimp only
      unfold consoleFlush
      rw [wp_bind, wp_get, wp_ite]
      refine ⟨fun he => wp_pure.mpr ⟨.silent (.inr ⟨p, i, a, ho, ha, hfs, he⟩), rfl, rfl⟩,
        fun _ => ?_⟩
      rw [wp_bind, wp_modifyConsole]
      have hans : ∀ rval : Int, Answers s' pid
          (({ s' with console := { s'.console with bufUsed := 0 } } : Vfs).replied pid [rval]) :=
        fun rval => ⟨s'.files, 0, [rval], .refl _, rfl⟩
      exact wp_syscallReply ⟨.answered (hans _), (hans _).atOnce⟩

theorem vfsLseek_spec (pid : Pid) (fd : Int) (pos whence : Int) :
    Wp (vfsLseek pid fd pos whence) s (fun _ => Called s pid False) (Unless False) := by
  unfold vfsLseek
  refine wp_getVfile (fun _ => .answered) rfl fun p i ho => ?_
  dsimp only
  split
  · exact wp_throw.mpr (Unless.of_ne (by decide))
  · rw [wp_bind, wp_get, wp_bind, wp_modifyFiles]
    exact wp_syscallReply (.answered (.replied_of_quiet (.seek ho.1 i _) _))

/-- There are at most as many special files as positions before the one that is asked for. -/
theorem specialFrom_le {pos pos2 k : Int} {n : Nat} {r : Option Nat} (hk : k ≤ pos)
    (h : specialFrom f pos n r k = some (.ok pos2)) : pos2 ≤ pos := by
  induction n generalizing r k with
  | zero =>
    cases r with
    | none =>
      obtain rfl : k = pos2 := by simpa [specialFrom] using h
      exact hk
    | some a => simp [specialFrom] at h
  | succ n ih =>
    cases r with
    | none =>
      obtain rfl : k = pos2 := by simpa [specialFrom] using h
      exact hk
    | some a =>
      rw [specialFrom] at h
      split at h
      · split at h
        · simp at h
        · exact ih (by omega) h
      · exact ih hk h

theorem vfsGetdirent_spec (pid : Pid) (pos : Int) (nbyte : Nat) :
    Wp (vfsGetdirent pid pos nbyte) s (fun _ => Called s pid False) (Unless False) := by
  unfold vfsGetdirent nfsfsGetdirent
  rw [wp_ite]
  refine ⟨fun _ => called_of_answers wp_answer, fun hpos => ?_⟩
  rw [wp_bind, wp_get]
  cases hspecial : specialFrom s.files pos s.files.mallocs s.files.globalVNodes 0 with
  | none => exact wp_throw.mpr (Unless.of_ne (by decide))
  | some r =>
    cases r with
    | error nlen => exact called_of_answers wp_answer
    | ok pos2 =>
      have hle := specialFrom_le (by omega) hspecial
      refine (request_spec ..).imp ?_
      rintro _ s' rfl
      refine .requested ?_
      change (0 : Int) ≤ pos - pos2
      omega

/-- The calls that begin with a walk through the vnodes. -/
theorem wp_findVnode {path : Path} (rt : RequestType) {k : Nat → VfsM Unit} (hrt : Asks s pid rt)
    (h : ∀ a, Wp (k a) s (fun _ => Answers s pid) (Unless False)) :
    Wp (do match ← Vfs.findVnode path with
      | none => request pid rt
      | some a => k a) s (fun _ => Called s pid False) (Unless False) := by
  unfold Vfs.findVnode
  rw [wp_bind, wp_bind, wp_get]
  cases s.files.findVnode path with
  | none => exact wp_throw.mpr (Unless.of_ne (by decide))
  | some r =>
    dsimp only
    rw [wp_pure]
    cases r with
    | none =>
      refine (request_spec ..).imp ?_
      rintro _ s' rfl
      exact .requested hrt
    | some a => exact called_of_answers (h a)

theorem vfsStat_spec (pid : Pid) (path : Path) :
    Wp (vfsStat pid path) s (fun _ => Called s pid False) (Unless False) := by
  refine wp_findVnode (.stat path) trivial fun a => ?_
  rw [wp_bind, wp_get]
  cases hfs : (s.files.vnodes a).fs with
  | null => exact wp_throw.mpr (Unless.of_ne (by decide))
  | nfs =>
    dsimp only
    unfold nfsfsStatOpen
    rw [wp_bind, wp_get, wp_ite]
    exact ⟨fun _ => wp_answer, fun _ => wp_answer⟩
  | console =>
    dsimp only
    unfold consoleStat
    rw [wp_bind, wp_get, wp_ite]
    exact ⟨fun _ => wp_answer, fun _ => wp_answer⟩

theorem vfsRemove_spec (pid : Pid) (path : Path) :
    Wp (vfsRemove pid path) s (fun _ => Called s pid False) (Unless False) := by
  refine wp_findVnode (.remove path) trivial fun a => ?_
  rw [wp_bind, wp_get]
  dsimp only
  rw [wp_ite]
  refine ⟨fun _ => wp_answer, fun _ => ?_⟩
  cases hfs : (s.files.vnodes a).fs with
  | null => exact wp_throw.mpr (Unless.of_ne (by decide))
  | nfs | console => exact wp_answer

/-! ## Duplicating descriptors -/

/-- `vfs_dup`: an error; the first descriptor is copied to one that is not open; or to one that is,
which is closed with the replies of the process off. -/
inductive Dupped (s : Vfs) (pid : Pid) (forig fdup : Int) : Vfs → Prop
  | refused {rval} : rval < 0 → s.NotOpen pid forig ∨ ¬ (0 ≤ fdup ∧ fdup < 19) →
      Dupped s pid forig fdup (s.replied pid [rval])
  | copied {p i} {g : Fin 19} : s.OpenFd pid forig p i → p.vfile? g = none →
      fdup = g ∨ fdup = vfsNilFile ∧ p.freeFd = some g →
      Dupped s pid forig fdup
        ((s.withFiles (s.files.dupTo pid forig g i)).replied pid [(g : Int)])
  | replaced {p i j u} {g : Fin 19} : fdup = g → s.OpenFd pid forig p i → s.OpenFd pid g p j →
      Closed (s.withFiles (s.files.upd pid ({ · with ipcAccept := .none }))) pid g u →
      Dupped s pid forig fdup ((u.withFiles ((u.files.upd pid
        ({ · with ipcAccept := p.ipcAccept })).dupTo pid forig g i)).replied pid [(g : Int)])

theorem Dupped.frame {forig fdup : Int} (h : Dupped s pid forig fdup t) : Frame s t := by
  cases h with
  | refused => exact frame_replied s s.files pid _ _
  | copied => exact frame_replied ..
  | @replaced p i j u g _ _ _ hu =>
    have h₁ := hu.frame
    have h₂ := frame_replied u ((u.files.upd pid ({ · with ipcAccept := p.ipcAccept })).dupTo pid
      forig g i) pid [(g : Int)] none
    exact ⟨h₂.nfs.trans h₁.nfs, h₂.console.trans h₁.console, h₂.caller.trans h₁.caller,
      h₂.calls.trans h₁.calls, h₂.incs.trans h₁.incs⟩

theorem wp_updProcess {f : Process → Process} :
    Wp (updProcess pid f) s Q E ↔ Q () (s.withFiles (s.files.upd pid f)) := wp_modifyFiles

theorem Process.vfile?_freeFd {p : Process} {g : Fin 19} (h : p.freeFd = some g) :
    p.vfile? g = none := by
  unfold Process.vfile?
  rw [Process.fdFile?_coe, Process.freeFd_eq h]
  rfl

/-- The end of `vfs_dup`. -/
def vfsDupTo (pid : Pid) (forig : Int) (g : Fin 19) (i : Fin 16) : VfsM Unit := do
  updProcess pid fun p => p.setFd g ((p.fdFile? forig).getD vfsNilFile)
  if (g : Int) = vfsNilFile then syscallReply pid vfsNomore
  else
    updProcess pid fun p => p.setFile i { p.files i with ref := ((p.files i).ref + 1) % wordLimit }
    syscallReply pid g

theorem dupTo_spec (pid : Pid) (forig : Int) (g : Fin 19) (i : Fin 16) :
    Wp (vfsDupTo pid forig g i) s
      (fun _ s' => s' = (s.withFiles (s.files.dupTo pid forig g i)).replied pid [(g : Int)])
      (Unless False) := by
  have hg : ¬ (g : Int) = vfsNilFile := by
    unfold vfsNilFile
    omega
  unfold vfsDupTo
  rw [wp_bind, wp_updProcess, if_neg hg, wp_bind, wp_updProcess]
  exact wp_syscallReply rfl

theorem vfsDup_spec (pid : Pid) (forig fdup : Int) :
    Wp (vfsDup pid forig fdup) s (fun _ => Dupped s pid forig fdup) (Unless False) := by
  unfold vfsDup
  rw [wp_bind]
  refine (getVfile_spec forig true).imp ?_
  rintro r s' hr
  cases r with
  | none =>
    obtain ⟨rfl, hn⟩ := hr
    exact wp_pure.mpr (.refused (by decide) (.inl hn))
  | some x =>
    obtain ⟨p, i⟩ := x
    obtain ⟨rfl, ho⟩ := hr
    dsimp only
    rw [wp_ite]
    refine ⟨fun hrange => wp_syscallReply (.refused (by decide) (.inr (by omega))),
      fun hrange => ?_⟩
    by_cases hnil : fdup = vfsNilFile
    · rw [if_pos hnil]
      cases hfd : p.freeFd with
      | none =>
        simp only [pure_bind, if_true]
        refine wp_syscallReply (.refused (by decide) (.inr ?_))
        rw [hnil]
        decide
      | some g =>
        simp only [pure_bind]
        refine (dupTo_spec pid forig g i).imp ?_
        rintro _ s' rfl
        exact .copied ho (Process.vfile?_freeFd hfd) (.inr ⟨hnil, hfd⟩)
    · rw [if_neg hnil]
      obtain ⟨g, rfl⟩ : ∃ g : Fin 19, fdup = g :=
        ⟨⟨fdup.toNat, by omega⟩, by simp; omega⟩
      simp only [pure_bind]
      rw [wp_bind]
      refine (getVfile_spec (g : Int) false).imp ?_
      rintro r s₁ hr
      cases r with
      | none =>
        obtain ⟨rfl, hn⟩ := hr
        refine (dupTo_spec pid forig g i).imp ?_
        rintro _ s' rfl
        exact .copied ho (hn p (process?_of_slot ho.1)) (.inl rfl)
      | some x =>
        obtain ⟨q, j⟩ := x
        obtain ⟨rfl, hq, hj⟩ := hr
        obtain rfl := Slot.pcb.inj (ho.1.symm.trans hq)
        dsimp only
        rw [wp_bind, wp_updProcess, wp_bind]
        refine (vfsClose_spec pid g).imp fun _ u hu => ?_
        rw [wp_bind, wp_updProcess]
        refine (dupTo_spec pid forig g i).imp ?_
        rintro _ s' rfl
        exact .replaced rfl ho ⟨hq, hj⟩ hu

/-! ## Callbacks of the NFS library -/

/-- The callback of a request runs for the call the request was made for. -/
def resumed (s : Vfs) (rq : NfsRequest) : Vfs := { s with caller := rq.caller }

/-- What the callback of a call with the token does, once the call is no longer under way: there is
no such request; a lookup has succeeded; a file to be written is to be made first; a lookup has
failed; a request of another kind is answered; or a directory goes on. -/
inductive Completed (s : Vfs) (token : Nat) (ans : RpcAnswer) : Vfs → Prop
  | unknown : s.nfs.requests.find? (·.token = token) = none → Completed s token ans s
  | lookedUp {rq a mode u} : s.nfs.requests.find? (·.token = token) = some rq →
      rq.rt = .lookup a mode → ans.status = .ok → (s.files.vnodes a).extra ≠ .null →
      OpenDone ((s.resumed rq).withFiles (s.files.filled a ans)) rq.pid a mode vfsOk u →
      Completed s token ans (u.removed rq)
  | missing {rq a mode path} : s.nfs.requests.find? (·.token = token) = some rq →
      rq.rt = .lookup a mode →
      Completed s token ans
        { s.resumed rq with nfs := s.nfs.issue (.create path) .lookupCb rq.token }
  | failed {rq a mode u} : s.nfs.requests.find? (·.token = token) = some rq →
      rq.rt = .lookup a mode → ans.status ≠ .ok →
      OpenDone ((s.resumed rq).withFiles (s.files.freeNfsfile a)) rq.pid a mode
        ans.status.toVfs u →
      Completed s token ans (u.removed rq)
  | answered {rq u} : s.nfs.requests.find? (·.token = token) = some rq →
      (∀ a mode, rq.rt ≠ .lookup a mode) → Answers (s.resumed rq) rq.pid u →
      Completed s token ans (u.removed rq)
  | more {rq pos nbyte cpos cpos' cookie} :
      s.nfs.requests.find? (·.token = token) = some rq → rq.rt = .dir pos nbyte cpos →
      cpos' ≤ pos →
      Completed s token ans { s.resumed rq with
        nfs := { s.nfs with requests := s.nfs.requests.map fun r =>
          if r.id = rq.id then { r with rt := .dir pos nbyte cpos' } else r : Nfs }.issue
            (.readdir cookie) .getdirentCb rq.token }

theorem NfsStatus.toVfs_neg {st : NfsStatus} (h : st ≠ .ok) : st.toVfs < 0 := by
  cases st <;> first | exact absurd rfl h | decide

theorem NfsStatus.toVfs_ne_ok {st : NfsStatus} (h : st ≠ .ok) : st.toVfs ≠ vfsOk :=
  (NfsStatus.toVfs_neg h).ne

section Found

variable (hfind : s.nfs.requests.find? (·.token = token) = some rq)
include hfind

/-- A callback that answers and then takes the request off. -/
theorem answer_remove_spec {v : Vfs} (hrt : ∀ a mode, rq.rt ≠ .lookup a mode)
    (hm : Wp m v (fun _ => Answers (s.resumed rq) rq.pid) (Unless False)) :
    Wp (do m; removeRequest rq) v (fun _ => Completed s token ans) (Unless False) := by
  rw [wp_bind]
  refine hm.imp fun _ u hu => (removeRequest_spec rq).imp ?_
  rintro _ s' rfl
  exact .answered hfind hrt hu

theorem lookupCb_spec (hrt : rq.rt = .lookup a mode) :
    Wp (lookupCb rq a mode ans) (s.resumed rq) (fun _ => Completed s token ans)
      (Unless False) := by
  unfold lookupCb
  rw [wp_bind, wp_get, wp_ite]
  refine ⟨fun hok => ?_, fun hok => ?_⟩
  · rw [wp_ite]
    refine ⟨fun _ => wp_throw.mpr (Unless.of_ne (by decide)), fun he => ?_⟩
    rw [wp_bind, wp_modifyFiles, wp_bind]
    refine (vfsOpenDone_spec rq.pid a mode vfsOk).mono (fun _ u hu => ?_)
      (Unless.mono fun h => ?_)
    · refine (removeRequest_spec rq).imp ?_
      rintro _ s' rfl
      exact .lookedUp hfind hrt hok he hu
    · simp [withFiles, Files.cpStats] at h
  · rw [wp_ite]
    refine ⟨fun _ => ?_, fun _ => ?_⟩
    · unfold issue
      exact wp_modifyNfs.mpr (.missing hfind hrt)
    · rw [wp_bind, wp_modifyFiles, wp_bind]
      refine (vfsOpenDone_spec rq.pid a mode _).mono (fun _ u hu => ?_)
        (Unless.mono fun h => ?_)
      · refine (removeRequest_spec rq).imp ?_
        rintro _ s' rfl
        exact .failed hfind hrt hok hu
      · simp [withFiles, Files.freeNfsfile] at h

theorem readCb_spec (hrt : ∀ a mode, rq.rt ≠ .lookup a mode) :
    Wp (readCb rq a fd ans) (s.resumed rq) (fun _ => Completed s token ans) (Unless False) := by
  unfold readCb
  dsimp only
  rw [wp_ite]
  refine ⟨fun _ => answer_remove_spec hfind hrt (vfsReadDone_spec ..), fun _ => ?_⟩
  rw [wp_bind, wp_modifyFiles]
  exact answer_remove_spec hfind hrt
    ((vfsReadDone_spec ..).imp fun _ u hu =>
      .of_quiet ((Files.Quiet.memcpy s.files _ _ _).trans (.cpStats _ a ans.attr)) hu)

theorem writeCb_spec {nbyte : Nat} (hrt : ∀ a mode, rq.rt ≠ .lookup a mode) :
    Wp (writeCb rq a fd nbyte ans) (s.resumed rq) (fun _ => Completed s token ans)
      (Unless False) := by
  unfold writeCb
  dsimp only
  rw [wp_ite]
  refine ⟨fun _ => answer_remove_spec hfind hrt (vfsWriteDone_spec ..), fun _ => ?_⟩
  rw [wp_bind, wp_modifyFiles]
  exact answer_remove_spec hfind hrt
    ((vfsWriteDone_spec ..).imp fun _ u hu => .of_quiet (.cpStats s.files a ans.attr) hu)

theorem getdirentCb_spec {pos cpos : Int} {nbyte : Nat} (hrt : rq.rt = .dir pos nbyte cpos) :
    Wp (getdirentCb rq pos nbyte cpos ans) (s.resumed rq) (fun _ => Completed s token ans)
      (Unless False) := by
  have hnot : ∀ a mode, rq.rt ≠ .lookup a mode := fun a mode h => by simp [hrt] at h
  unfold getdirentCb
  rw [wp_ite]
  refine ⟨fun _ => answer_remove_spec hfind hnot wp_answer, fun _ => ?_⟩
  rw [wp_ite]
  refine ⟨fun _ => ?_, fun hmore => ?_⟩
  · rw [wp_ite]
    refine ⟨fun _ => wp_throw.mpr (Unless.of_ne (by decide)), fun _ => ?_⟩
    split
    · exact wp_throw.mpr (Unless.of_ne (by decide))
    · exact answer_remove_spec hfind hnot wp_answer
  · rw [wp_ite]
    refine ⟨fun _ => ?_, fun _ => answer_remove_spec hfind hnot wp_answer⟩
    unfold issue
    rw [wp_bind, wp_modifyNfs]
    exact wp_modifyNfs.mpr (.more hfind hrt (by omega))

end Found

theorem callback_spec (cb : RpcCallback) (token : Nat) (ans : RpcAnswer) :
    Wp (callback cb token ans) s (fun _ => Completed s token ans) (Unless False) := by
  unfold callback getRequest
  rw [wp_bind, wp_bind, wp_get, wp_pure]
  cases hfind : s.nfs.requests.find? (·.token = token) with
  | none => exact wp_pure.mpr (.unknown hfind)
  | some rq =>
    dsimp only
    rw [wp_bind, wp_modify]
    change Wp _ (s.resumed rq) _ _
    split
    · next hrt => exact lookupCb_spec hfind hrt
    · next hrt => exact readCb_spec hfind fun _ _ h => by simp [hrt] at h
    · next hrt => exact writeCb_spec hfind fun _ _ h => by simp [hrt] at h
    · next hrt => exact getdirentCb_spec hfind hrt
    · next hrt => exact answer_remove_spec hfind (fun _ _ h => by simp [hrt] at h) wp_answer
    · next hrt => exact answer_remove_spec hfind (fun _ _ h => by simp [hrt] at h) wp_answer
    · exact wp_throw.mpr (Unless.of_ne (by decide))

/-! ## The serial line -/

/-- `serial_read_callback`: nobody reads; a character is kept; or the reader is answered. -/
inductive Typed (s : Vfs) : Vfs → Prop
  | idle : s.console.reader = none → Typed s s
  | kept {r n} : s.console.reader = some r →
      Typed s { s with console := { s.console with reader := some { r with rbyte := n } } }
  | line {r u} : s.console.reader = some r → Answers { s with caller := r.caller } r.pid u →
      Typed s { u with console := { u.console with reader := none } }

theorem serialReadCallback_spec (newline : Bool) :
    Wp (serialReadCallback newline) s (fun _ => Typed s) (Unless False) := by
  unfold serialReadCallback
  rw [wp_bind, wp_get]
  cases hr : s.console.reader with
  | none => exact wp_pure.mpr (.idle hr)
  | some r =>
    dsimp only
    rw [wp_ite]
    refine ⟨fun _ => ?_, fun _ => wp_modifyConsole.mpr (.kept hr)⟩
    rw [wp_bind, wp_modify, wp_bind]
    exact (vfsReadDone_spec ..).imp fun _ u hu => wp_modifyConsole.mpr (.line hr hu)

/-! ## Messages -/

/-- The state in which a call is served. -/
def called (s : Vfs) (pid : Pid) (own : Bool) : Vfs :=
  { s with
    caller := ⟨s.calls, pid, ((s.process? pid).map (·.inc)).getD 0, own⟩
    calls := s.calls + 1 }

/-- The state when the answer to the call at position `i` has arrived. -/
def received (s : Vfs) (i : Nat) : Vfs :=
  { s with nfs := { s.nfs with rpcs := s.nfs.rpcs.eraseIdx i } }

/-- A new entry of the process table. -/
def withSlot (s : Vfs) (pid : Pid) (x : Slot) : Vfs :=
  s.withFiles { s.files with sosProcs := Function.update s.files.sosProcs pid x }

/-- The process of a call other than those that open and close, made by itself or by the pager. -/
def Event.from (e : Event) (own : Bool) : Option Pid :=
  match own, e with
  | true, .read pid .. | true, .write pid .. | true, .flush pid .. | true, .lseek pid ..
  | true, .getdirent pid .. | true, .stat pid _ | true, .remove pid _ | false, .psFlush pid .. =>
    some pid
  | _, _ => none

/-- The descriptor that a message is to flush. -/
def Event.flushes : Event → Option Int
  | .flush _ fd _ | .psFlush _ fd _ => some fd
  | _ => none

/-- What the handling of a message leaves behind. -/
inductive Handled (s : Vfs) (e : Event) : Vfs → Prop
  | opened (own : Bool) (pid : Pid) (path : Path) (mode readers writers block : Nat) {t : Vfs} :
      e = (if own then .open pid path mode readers writers block
        else .psOpen pid path mode readers writers block) →
      Opened (s.called pid own) pid path (mode % 256) (readers % wordLimit) (writers % wordLimit)
        block t →
      Handled s e t
  | closed (own : Bool) (pid : Pid) (fd : Int) {t : Vfs} :
      e = (if own then .close pid fd else .psClose pid fd) →
      Closed (s.called pid own) pid fd t → Handled s e t
  | dupped (own : Bool) (pid : Pid) (forig fdup : Int) {t : Vfs} :
      e = (if own then .dup pid forig fdup else .psDup pid forig fdup) →
      Dupped (s.called pid own) pid forig fdup t → Handled s e t
  | called (own : Bool) (pid : Pid) {t : Vfs} : Event.from e own = some pid →
      own = true ∨ AtOnce s t →
      Called (s.called pid own) pid
        (∃ fd ∈ Event.flushes e, (s.called pid own).SilentFlush pid fd) t → Handled s e t
  | completed (i : Nat) (rpc : Rpc) (ans : RpcAnswer) {t : Vfs} : e = .rpcReply i ans →
      s.nfs.rpcs[i]? = some rpc → Completed (s.received i) rpc.token ans t → Handled s e t
  | typed (newline : Bool) {t : Vfs} : e = .serial newline → Typed s t → Handled s e t
  | reserved (pid : Pid) : e = .reserve pid → Handled s e (s.withSlot pid .placeholder)
  | spawned (pid : Pid) (p : Process) : e = .spawn pid p →
      Handled s e { s.withSlot pid (.pcb { p with
        fds := fun _ => vfsNilFile, files := fun _ => {}, state := .start, ipcAccept := .all
        inc := s.incs }) with incs := s.incs + 1 }
  | turned (pid : Pid) (state : ProcessState) : e = .run pid ∧ state = .alive ∨
      e = .zombie pid ∧ state = .zombie →
      Handled s e (s.withFiles (s.files.upd pid ({ · with state := state })))
  | retired (pid : Pid) (p : Process) : e = .removePcb pid → s.files.sosProcs pid = .pcb p →
      Handled s e (s.withFiles { s.files with
        sosProcs := Function.update s.files.sosProcs pid .null
        lost := s.files.lost ++ p.openFiles })

/-- An open gives the console up. -/
def GivesUpConsole (s : Vfs) (e : Event) : Prop :=
  ∃ own pid path mode readers writers block,
    e = (if own then .open pid path mode readers writers block
      else .psOpen pid path mode readers writers block) ∧
    (s.called pid own).GivesUpShared pid path (mode % 256) (readers % wordLimit)
      (writers % wordLimit)

theorem wp_serve {own : Bool} :
    Wp (serve pid own m) s Q E ↔ Wp m (s.called pid own) Q E := by
  unfold serve
  rw [wp_bind, wp_modify]
  rfl

theorem Called.mono {p q : Prop} (h : p → q) (hc : Called s pid p t) : Called s pid q t := by
  cases hc with
  | silent hp => exact .silent (h hp)
  | answered ha => exact .answered ha
  | requested hr => exact .requested hr
  | reader hr hp hc => exact .reader hr hp hc

/-- A call that only reads, for a message that comes from `pid`. -/
theorem wp_called {e : Event} (he : Event.from e true = some pid)
    (h : Wp m (s.called pid true) (fun _ => Called (s.called pid true) pid False) (Unless False)) :
    Wp (serve pid true m) s (fun _ => Handled s e) (Unless (s.GivesUpConsole e)) := by
  rw [wp_serve]
  exact h.mono (fun _ _ hc => .called true pid he (.inl rfl) (hc.mono False.elim))
    (Unless.mono False.elim)

/-- **Inversion of a step.** Whatever the message, the handler ends in one of the listed ways; it
frees static memory only if an open gives the console up. -/
theorem handle_spec (s : Vfs) (e : Event) (he : Enabled s e) :
    Wp (handle e) s (fun _ => Handled s e) (Unless (s.GivesUpConsole e)) := by
  cases e with
  | «open» pid path mode readers writers block =>
    exact wp_serve.mpr ((vfsOpen_spec ..).mono (fun _ _ h => .opened true _ _ _ _ _ _ rfl h)
      (Unless.mono fun h => ⟨true, _, _, _, _, _, _, rfl, h⟩))
  | psOpen pid path mode readers writers block =>
    exact wp_serve.mpr ((vfsOpen_spec ..).mono (fun _ _ h => .opened false _ _ _ _ _ _ rfl h)
      (Unless.mono fun h => ⟨false, _, _, _, _, _, _, rfl, h⟩))
  | close pid fd =>
    exact wp_serve.mpr ((vfsClose_spec ..).mono (fun _ _ h => .closed true _ _ rfl h)
      (Unless.mono False.elim))
  | psClose pid fd =>
    exact wp_serve.mpr ((vfsClose_spec ..).mono (fun _ _ h => .closed false _ _ rfl h)
      (Unless.mono False.elim))
  | dup pid forig fdup =>
    exact wp_serve.mpr ((vfsDup_spec ..).mono (fun _ _ h => .dupped true _ _ _ rfl h)
      (Unless.mono False.elim))
  | psDup pid forig fdup =>
    exact wp_serve.mpr ((vfsDup_spec ..).mono (fun _ _ h => .dupped false _ _ _ rfl h)
      (Unless.mono False.elim))
  | read pid fd nbyte => exact wp_called rfl (vfsRead_spec ..)
  | write pid fd nbyte newline sends => exact wp_called rfl (vfsWrite_spec ..)
  | lseek pid fd pos whence => exact wp_called rfl (vfsLseek_spec ..)
  | getdirent pid pos nbyte => exact wp_called rfl (vfsGetdirent_spec ..)
  | stat pid path => exact wp_called rfl (vfsStat_spec ..)
  | remove pid path => exact wp_called rfl (vfsRemove_spec ..)
  | flush pid fd sends =>
    exact wp_serve.mpr ((vfsFlush_spec ..).mono
      (fun _ _ h => .called true pid rfl (.inl rfl) (h.1.mono fun hq => ⟨fd, rfl, hq⟩))
      (Unless.mono False.elim))
  | psFlush pid fd sends =>
    exact wp_serve.mpr ((vfsFlush_spec ..).mono
      (fun _ _ h => .called false pid rfl (.inr h.2) (h.1.mono fun hq => ⟨fd, rfl, hq⟩))
      (Unless.mono False.elim))
  | rpcReply i ans =>
    have hi : i < s.nfs.rpcs.length := he.2
    unfold handle
    rw [wp_bind, wp_get, List.getElem?_eq_getElem hi]
    dsimp only
    rw [wp_bind, wp_modifyNfs]
    exact (callback_spec ..).mono
      (fun _ _ h => .completed i _ ans rfl (List.getElem?_eq_getElem hi) h) (Unless.mono False.elim)
  | serial newline =>
    exact (serialReadCallback_spec newline).mono (fun _ _ h => .typed newline rfl h)
      (Unless.mono False.elim)
  | reserve pid =>
    unfold handle setSlot
    rw [wp_modifyFiles]
    exact .reserved pid rfl
  | spawn pid p =>
    unfold handle setSlot
    rw [wp_bind, wp_get, wp_bind, wp_modifyFiles, wp_modify]
    exact .spawned pid p rfl
  | run pid => exact wp_updProcess.mpr (.turned pid _ (.inl ⟨rfl, rfl⟩))
  | zombie pid => exact wp_updProcess.mpr (.turned pid _ (.inr ⟨rfl, rfl⟩))
  | removePcb pid =>
    obtain ⟨p, hp, -⟩ : ∃ p ∈ s.process? pid, p.state = .zombie := he.2
    unfold handle setSlot
    rw [wp_bind, wp_get, Option.mem_def.mp hp]
    dsimp only
    rw [wp_bind, wp_modifyFiles, wp_modifyFiles]
    exact .retired pid p rfl (slot_of_process? hp)

theorem Step.handled {e : Event} (h : Step s e t) : Handled s e t :=
  (handle_spec s e h.1).ok h.2

/-- **Invariants.** What holds after start-up and is kept by every step holds in every state that
is reached. -/
theorem Reachable.invariant {C : Vfs → Event → Prop} {I : Vfs → Prop} (h : Reachable C s)
    (start : ∀ s, Started s → I s) (step : ∀ s e t, I s → C s e → Step s e t → I t) : I s := by
  induction h with
  | start hs => exact start _ hs
  | step _ hc hst ih => exact step _ _ _ ih hc hst

theorem Reachable.mono {C D : Vfs → Event → Prop} (hCD : ∀ s e, C s e → D s e)
    (h : Reachable C s) : Reachable D s := by
  induction h with
  | start hs => exact .start hs
  | step _ hc hst ih => exact ih.step (hCD _ _ hc) hst

end Vfs

end Sos
