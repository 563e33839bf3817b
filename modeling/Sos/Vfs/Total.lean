import Sos.Vfs.Ledger

/-!
# Calls that return

When the vnodes are in order, the functions of the file layer use no NULL pointer, free nothing
twice and walk through no endless list. `Safe m s` says that `m` returns from `s`; what it then
leaves behind is in `Sos.Vfs.Outcomes` and `Sos.Vfs.Steps`.
-/

namespace Sos.Vfs

open Hoare

variable {α β : Type} {s t : Vfs} {pid : Pid} {a c mode : Nat} {fd : Int}
variable {p : Process} {f : Files} {rq : NfsRequest} {ans : RpcAnswer}

/-- The code returns. -/
abbrev Safe (m : VfsM α) (s : Vfs) : Prop := Wp m s (fun _ _ => True) (fun _ _ => False)

/-- What is known of the end of code that returns. -/
theorem Safe.wp {m : VfsM α} {Q : α → Vfs → Prop} {E : VfsFault → Vfs → Prop} (h : Safe m s)
    (hm : Wp m s Q E) : Wp m s Q (fun _ _ => False) :=
  (hm.and h).mono (fun _ _ h => h.1) fun _ _ h => h.2

theorem Safe.bind {m : VfsM α} {k : α → VfsM β} {Q : α → Vfs → Prop} {E : VfsFault → Vfs → Prop}
    (h : Safe m s) (hm : Wp m s Q E) (hk : ∀ x t, Q x t → Safe (k x) t) : Safe (m >>= k) s :=
  wp_bind.mpr ((h.wp hm).imp hk)

theorem safe_bind {m : VfsM α} {k : α → VfsM β} :
    Safe (m >>= k) s ↔ Wp m s (fun x t => Safe (k x) t) (fun _ _ => False) := wp_bind

theorem safe_get {k : Vfs → VfsM β} : Safe (get >>= k) s ↔ Safe (k s) s := by
  rw [safe_bind, wp_get]

theorem safe_ite {p : Prop} [Decidable p] {m₁ m₂ : VfsM α} :
    Safe (if p then m₁ else m₂) s ↔ (p → Safe m₁ s) ∧ (¬ p → Safe m₂ s) := wp_ite

theorem safe_modifyFiles {f : Files → Files} {k : Unit → VfsM β} :
    Safe (modifyFiles f >>= k) s ↔ Safe (k ()) (s.withFiles (f s.files)) := by
  rw [safe_bind, wp_modifyFiles]

theorem safe_modifyConsole {f : Console → Console} {k : Unit → VfsM β} :
    Safe (modifyConsole f >>= k) s ↔ Safe (k ()) { s with console := f s.console } := by
  rw [safe_bind, wp_modifyConsole]

theorem safe_pure {x : α} : Safe (pure x : VfsM α) s := wp_pure.mpr trivial

/-! ## Replies and descriptors -/

/-- The pid is not merely reserved. -/
def Known (s : Vfs) (pid : Pid) : Prop := s.files.sosProcs pid ≠ .placeholder

theorem Known.of_process (h : s.files.sosProcs pid = .pcb p) : s.Known pid := by
  unfold Known
  rw [h]
  exact nofun

theorem Known.congr (h : s.Known pid) (ht : t.files.sosProcs pid = s.files.sosProcs pid) :
    t.Known pid := by
  unfold Known
  rwa [ht]

theorem safe_syscallReplyV (h : s.Known pid) (words : List Int) (opened : Option Nat) :
    Safe (syscallReplyV pid words opened) s := by
  unfold syscallReplyV
  rw [safe_get]
  cases hp : s.files.sosProcs pid with
  | placeholder => exact absurd hp h
  | null | pcb p => exact wp_modify.mpr trivial

theorem safe_syscallReply (h : s.Known pid) (rval : Int) : Safe (syscallReply pid rval) s :=
  safe_syscallReplyV h [rval] none

theorem safe_getVfile (h : s.Known pid) (fd : Int) (ipc : Bool) : Safe (getVfile pid fd ipc) s := by
  unfold getVfile
  rw [safe_get]
  cases hp : s.files.sosProcs pid with
  | null => exact safe_pure
  | placeholder => exact absurd hp h
  | pcb p =>
    dsimp only
    cases p.vfile? fd with
    | some i => exact safe_pure
    | none =>
      dsimp only
      rw [safe_ite]
      refine ⟨fun _ => ?_, fun _ => safe_pure⟩
      rw [safe_bind]
      exact (safe_syscallReply h vfsNofile).imp fun _ _ _ => safe_pure

/-- A call that begins with a descriptor. -/
theorem Safe.getVfile {ipc : Bool} {m : Option (Process × Fin 16) → VfsM Unit} (h : s.Known pid)
    (hn : m none = pure ()) (hm : ∀ p i, s.OpenFd pid fd p i → Safe (m (some (p, i))) s) :
    Safe (Vfs.getVfile pid fd ipc >>= m) s := by
  refine Safe.bind (safe_getVfile h fd ipc) (getVfile_spec fd ipc) fun r t hr => ?_
  cases r with
  | none =>
    rw [hn]
    exact safe_pure
  | some x =>
    obtain ⟨rfl, ho⟩ := hr
    exact hm x.1 x.2 ho

/-! ## Vnodes -/

theorem safe_freeVnode (h : s.files.Freeable a) : Safe (freeVnode a) s := by
  unfold freeVnode
  rw [safe_get, safe_ite]
  refine ⟨fun hc => absurd hc h.1, fun _ => ?_⟩
  rw [safe_modifyFiles, safe_get, safe_ite]
  exact ⟨fun _ => wp_modifyFiles.mpr trivial, fun hn => absurd h.2 hn⟩

theorem safe_vfsOpenErr (h : Errs s.files a) : Safe (vfsOpenErr a) s := by
  unfold vfsOpenErr
  rw [safe_get, safe_ite]
  refine ⟨fun hu => ?_, fun _ => safe_pure⟩
  rw [safe_modifyFiles]
  have hrel := s.files.relinked_removeVnode a
  refine safe_freeVnode ⟨?_, ?_⟩
  · change ((s.files.removeVnode a).vnodes a).extra ≠ _
    rw [hrel.extra]
    exact (h hu).1
  · change (s.files.removeVnode a).allocated a = _
    rw [hrel.allocated]
    exact (h hu).2

/-- `vfs_open_done` returns if it may free the vnode where it gives it up. -/
theorem safe_vfsOpenDone {status : Int} (h : s.Known pid) (hsmall : (s.files.vnodes a).Small)
    (hgive : s.GivesUp pid a mode status → s.files.Freeable a) :
    Safe (vfsOpenDone pid a mode status) s := by
  have hreply : ∀ rval f, f.sosProcs = s.files.sosProcs →
      Safe (syscallReply pid rval) (s.withFiles f) := fun rval f hf =>
    safe_syscallReply (h.congr (congrFun hf pid)) rval
  have herr : Errs s.files a → ∀ rval, Safe (do vfsOpenErr a; syscallReply pid rval) s := by
    intro he rval
    refine Safe.bind (safe_vfsOpenErr he) (vfsOpenErr_spec a) ?_
    rintro _ t ⟨rfl, -⟩
    exact hreply rval _ (Files.openErr_sosProcs ..)
  unfold vfsOpenDone
  rw [safe_get]
  cases hp : s.files.sosProcs pid with
  | placeholder => exact absurd hp h
  | null => exact safe_vfsOpenErr fun hu => hgive (.inl ⟨hu, .inl hp⟩)
  | pcb p =>
    dsimp only
    rw [safe_ite]
    refine ⟨fun hst => herr (fun hu => hgive (.inl ⟨hu, .inr (.inl hst)⟩)) _, fun _ => ?_⟩
    cases hv : (s.files.vnodes a).increaseRefs mode with
    | error rval => exact herr (fun hu => hgive (.inl ⟨hu, .inr (.inr ⟨rval, hv⟩)⟩)) rval
    | ok v =>
      dsimp only
      rw [safe_modifyFiles]
      cases hfd : p.findNextFd with
      | none =>
        have hback : v.decreaseRefs mode = s.files.vnodes a := hsmall.decreaseRefs_increaseRefs hv
        dsimp only
        rw [safe_modifyFiles, hback]
        have hsame : (s.withFiles (s.files.setVnode a v)).withFiles
            ((s.files.setVnode a v).setVnode a (s.files.vnodes a)) = s := by
          simp [withFiles, Files.setVnode]
        change Safe _ ((s.withFiles (s.files.setVnode a v)).withFiles
            ((s.files.setVnode a v).setVnode a (s.files.vnodes a)))
        rw [hsame]
        exact herr (fun hu => hgive (.inr ⟨p, v, hp, hv, hfd, by rwa [hback]⟩)) _
      | some x =>
        dsimp only
        rw [safe_modifyFiles]
        exact safe_syscallReplyV (Known.of_process (Function.update_self ..)) _ _

/-- The walk of `vfs_getdirent` ends. -/
theorem specialFrom_isSome (l₁ : List Nat) {l₂ : List Nat} {n : Nat} {pos k : Int}
    (h : f.Linked (l₁ ++ l₂)) (hn : l₂.length ≤ n) : (specialFrom f pos n l₂.head? k).isSome := by
  induction n generalizing l₁ l₂ k with
  | zero =>
    obtain rfl : l₂ = [] := List.length_eq_zero_iff.mp (by omega)
    rfl
  | succ n ih =>
    cases l₂ with
    | nil => rfl
    | cons b l₂ =>
      have hrest : ∀ k, (specialFrom f pos n (f.vnodes b).next k).isSome := fun k => by
        rw [(h.isList.links l₁ b l₂ rfl).1]
        exact ih (l₁ ++ [b]) (by simpa using h) (by simpa using hn)
      rw [List.head?_cons, specialFrom]
      split
      · split
        · rfl
        · exact hrest _
      · exact hrest _

theorem specialFrom_isSome_of_listed (h : f.Listed) (pos : Int) :
    (specialFrom f pos f.mallocs f.globalVNodes 0).isSome := by
  obtain ⟨l, hl, -, hlen⟩ := h
  rw [hl.isList.head_eq]
  exact specialFrom_isSome [] hl hlen

/-- An allocated vnode belongs to a file system. -/
theorem fs_ne_null (h : f.Kinds c) (ha : f.allocated a = true) :
    (f.vnodes a).fs ≠ .null := by
  by_cases hac : a = c
  · rw [hac, h.console.fs]
    exact nofun
  · rw [(h.nfs a ha hac).1]
    exact nofun

/-! ## Calls -/

/-- The vnodes are in order, and the files that the process has open are on vnodes that are
allocated. -/
structure Sane (s : Vfs) (pid : Pid) : Prop where
  known : s.Known pid
  kinds : s.files.Kinds s.console.vnode
  live : ∀ p i a, s.files.sosProcs pid = .pcb p → (p.files i).vnode = some a →
    s.files.allocated a = true

theorem sane_of_accounted (hs : s.Sorted) (hacc : s.Accounted) (hknown : s.Known pid) (own : Bool) :
    (s.called pid own).Sane pid where
  known := hknown
  kinds := hs.files
  live := fun _ _ _ hp ha => hacc.counts.allocated hp ha

theorem Sane.fs_ne_null {i : Fin 16} (h : s.Sane pid) (ho : s.OpenFd pid fd p i)
    (ha : (p.files i).vnode = some a) : (s.files.vnodes a).fs ≠ .null :=
  Vfs.fs_ne_null h.kinds (h.live p i a ho.1 ha)

theorem safe_request (pid : Pid) (rt : RequestType) : Safe (request pid rt) s :=
  (request_spec pid rt).mono (fun _ _ _ => trivial) fun _ _ h => h

/-- The walk of `find_vnode`. -/
theorem Safe.findVnode {path : Path} {k : Option Nat → VfsM Unit} (h : s.files.Listed)
    (hk : ∀ r, s.files.findVnode path = some r → Safe (k r) s) :
      Safe (Vfs.findVnode path >>= k) s := by
  obtain ⟨r, hr⟩ := Option.isSome_iff_exists.mp (h.findVnode_isSome path)
  unfold Vfs.findVnode
  rw [safe_bind, wp_bind, wp_get, hr]
  exact wp_pure.mpr (hk r hr)

theorem safe_vfsOpen {readers writers block : Nat} {path : Path} (h : s.Sane pid)
    (hgive : ¬ s.GivesUpShared pid path mode readers writers) :
    Safe (vfsOpen pid path mode readers writers block) s := by
  unfold vfsOpen
  rw [safe_get]
  cases hp : s.files.sosProcs pid with
  | null => exact safe_pure
  | placeholder => exact absurd hp h.known
  | pcb p =>
    dsimp only
    cases hpath : openPath p path mode with
    | error rval => exact safe_syscallReply h.known rval
    | ok path' =>
      refine Safe.findVnode h.kinds.listed fun r hfind => ?_
      cases r with
      | some a =>
        dsimp only
        rw [safe_ite]
        refine ⟨fun hlocks => ?_, fun _ => safe_syscallReply h.known _⟩
        refine safe_vfsOpenDone h.known (h.kinds.small a) fun hg => ⟨fun hextra => ?_, ?_⟩
        · exact hgive ⟨p, path', a, hp, hpath, hfind, hlocks, hextra, hg⟩
        · exact h.kinds.listed.allocated_of_find hfind
      | none =>
        dsimp only
        rw [safe_modifyFiles, safe_modifyFiles, safe_get]
        have hlink : ∀ u, Safe (do
            modifyFiles fun s => s.setVnode block { s.vnodes block with readers := 0, writers := 0 }
            nfsfsOpen pid block path' mode
            modifyFiles fun s => s.addVnode block) u := fun u =>
          (linkNew_spec pid block path' mode).mono (fun _ _ _ => trivial) fun _ _ h => h
        split
        · rw [safe_bind]
          refine Wp.imp (Safe.wp (safe_freeVnode ⟨?_, ?_⟩) (freeVnode_spec block)) ?_
          · simp [withFiles, Files.newVnode]
          · simp [withFiles, Files.newVnode, Files.setVnode]
          · rintro _ u ⟨rfl, -⟩
            rw [safe_bind]
            refine Wp.imp (safe_syscallReply ?_ _) fun _ u _ => hlink u
            exact Known.of_process hp
        · rw [safe_modifyFiles]
          exact hlink _

theorem safe_nfsfsClose (h : s.Known pid) (ha : s.files.allocated a = true) :
    Safe (nfsfsClose pid a) s := by
  unfold nfsfsClose vfsCloseDone
  rw [safe_modifyFiles]
  dsimp only
  have hrel := (s.files.freeNfsfile a).relinked_removeVnode a
  rw [if_pos rfl, safe_modifyFiles, safe_bind]
  refine Wp.imp (Safe.wp (safe_freeVnode ⟨?_, ?_⟩) (freeVnode_spec a)) ?_
  · change (((s.files.freeNfsfile a).removeVnode a).vnodes a).extra ≠ _
    rw [hrel.extra]
    simp [Files.freeNfsfile]
  · change ((s.files.freeNfsfile a).removeVnode a).allocated a = true
    rw [hrel.allocated]
    exact ha
  · rintro _ u ⟨rfl, -⟩
    refine safe_syscallReply (h.congr (congrFun ?_ pid)) vfsOk
    exact Files.drop_sosProcs (s.files.freeNfsfile a) a

theorem safe_closeVnode (hp : s.files.sosProcs pid = .pcb p)
    (ha : s.files.allocated a = true) (hfs : (s.files.vnodes a).fs ≠ .null) :
    Safe (do
      let v := (← get).files.vnodes a
      if v.unused then
        match v.fs with
        | .null => throw .nullPointer
        | .nfs => nfsfsClose pid a
        | .console => consoleClose pid a
      else syscallReply pid vfsOk) s := by
  have hknown := Known.of_process hp
  rw [safe_get]
  dsimp only
  rw [safe_ite]
  refine ⟨fun _ => ?_, fun _ => safe_syscallReply hknown _⟩
  cases hfs' : (s.files.vnodes a).fs with
  | null => exact absurd hfs' hfs
  | nfs => exact safe_nfsfsClose hknown ha
  | console =>
    unfold consoleClose vfsCloseDone
    dsimp only
    rw [if_neg (by decide)]
    exact safe_syscallReply hknown _

theorem safe_vfsClose (h : s.Sane pid) (fd : Int) : Safe (vfsClose pid fd) s := by
  unfold vfsClose
  refine Safe.getVfile h.known rfl fun p i ho => ?_
  obtain ⟨a, ha⟩ := ho.vnode
  have halloc := h.live p i a ho.1 ha
  have hfs := h.fs_ne_null ho ha
  dsimp only
  rw [ha]
  dsimp only
  by_cases href : ((p.files i).ref - 1) % wordLimit = 0
  · rw [if_pos href, safe_modifyFiles]
    refine safe_closeVnode (Function.update_self ..) halloc ?_
    simp [withFiles, Files.setVnode, Files.setProcess, VNode.decreaseRefs, hfs]
  · rw [if_neg href, safe_modifyFiles]
    exact safe_closeVnode (Function.update_self ..) halloc hfs

theorem safe_vfsReadDone (h : s.Known pid) (fd nbyte status : Int) :
    Safe (vfsReadDone pid fd nbyte status) s := by
  unfold vfsReadDone advance
  refine Safe.getVfile h rfl fun p i _ => ?_
  dsimp only
  rw [safe_ite]
  refine ⟨fun _ => safe_syscallReply h _, fun _ => ?_⟩
  rw [safe_modifyFiles]
  exact safe_syscallReply (Known.of_process (Function.update_self ..)) _

theorem safe_vfsWriteDone (h : s.Known pid) (fd nbyte status : Int) :
    Safe (vfsWriteDone pid fd nbyte status) s := by
  unfold vfsWriteDone advance
  rw [safe_ite]
  refine ⟨fun _ => safe_syscallReply h _, fun _ => ?_⟩
  refine Safe.getVfile h rfl fun p i _ => ?_
  dsimp only
  rw [safe_modifyFiles]
  exact safe_syscallReplyV (Known.of_process (Function.update_self ..)) _ _

theorem safe_vfsRead (h : s.Sane pid) (fd : Int) (nbyte : Nat) : Safe (vfsRead pid fd nbyte) s := by
  unfold vfsRead
  refine Safe.getVfile h.known rfl fun p i ho => ?_
  obtain ⟨a, ha⟩ := ho.vnode
  dsimp only
  rw [safe_ite]
  refine ⟨fun _ => safe_syscallReply h.known _, fun _ => ?_⟩
  rw [ha]
  dsimp only
  rw [safe_get]
  cases hfs : (s.files.vnodes a).fs with
  | null => exact absurd hfs (h.fs_ne_null ho ha)
  | nfs =>
    dsimp only
    unfold nfsfsRead
    rw [safe_get, safe_ite]
    exact ⟨fun _ => safe_vfsReadDone h.known .., fun _ => safe_request ..⟩
  | console =>
    dsimp only
    unfold consoleRead
    rw [safe_get, safe_ite]
    refine ⟨fun _ => safe_vfsReadDone h.known .., fun _ => ?_⟩
    rw [safe_ite]
    exact ⟨fun _ => safe_vfsReadDone h.known .., fun _ => wp_modifyConsole.mpr trivial⟩

theorem safe_vfsWrite (h : s.Sane pid) (fd : Int) (nbyte : Nat) (newline : Bool)
    (sends : List Int) : Safe (vfsWrite pid fd nbyte newline sends) s := by
  unfold vfsWrite
  refine Safe.getVfile h.known rfl fun p i ho => ?_
  obtain ⟨a, ha⟩ := ho.vnode
  dsimp only
  rw [safe_ite]
  refine ⟨fun _ => safe_syscallReply h.known _, fun _ => ?_⟩
  rw [ha]
  dsimp only
  rw [safe_get]
  cases hfs : (s.files.vnodes a).fs with
  | null => exact absurd hfs (h.fs_ne_null ho ha)
  | nfs =>
    dsimp only
    unfold nfsfsWrite
    rw [safe_get, safe_ite]
    exact ⟨fun _ => safe_vfsWriteDone h.known .., fun _ => safe_request ..⟩
  | console =>
    dsimp only
    unfold consoleWrite
    rw [safe_get]
    dsimp only
    rw [safe_ite]
    refine ⟨fun _ => safe_vfsWriteDone h.known .., fun _ => ?_⟩
    rw [safe_modifyConsole]
    refine safe_vfsWriteDone ?_ ..
    exact h.known

theorem safe_vfsFlush (h : s.Sane pid) (fd : Int) (sends : List Int) :
    Safe (vfsFlush pid fd sends) s := by
  unfold vfsFlush
  refine Safe.getVfile h.known rfl fun p i ho => ?_
  obtain ⟨a, ha⟩ := ho.vnode
  dsimp only
  rw [ha]
  dsimp only
  rw [safe_get]
  cases hfs : (s.files.vnodes a).fs with
  | null => exact absurd hfs (h.fs_ne_null ho ha)
  | nfs => exact safe_syscallReply h.known _
  | console =>
    dsimp only
    unfold consoleFlush
    rw [safe_get, safe_ite]
    refine ⟨fun _ => safe_pure, fun _ => ?_⟩
    rw [safe_modifyConsole]
    refine safe_syscallReply ?_ _
    exact h.known

theorem safe_vfsLseek (h : s.Sane pid) (fd pos whence : Int) :
    Safe (vfsLseek pid fd pos whence) s := by
  unfold vfsLseek
  refine Safe.getVfile h.known rfl fun p i ho => ?_
  obtain ⟨a, ha⟩ := ho.vnode
  dsimp only
  rw [ha]
  dsimp only
  rw [safe_get, safe_modifyFiles]
  exact safe_syscallReply (Known.of_process (Function.update_self ..)) _

theorem safe_vfsGetdirent (h : s.Sane pid) (pos : Int) (nbyte : Nat) :
    Safe (vfsGetdirent pid pos nbyte) s := by
  unfold vfsGetdirent nfsfsGetdirent
  rw [safe_ite]
  refine ⟨fun _ => safe_syscallReply h.known _, fun _ => ?_⟩
  rw [safe_get]
  obtain ⟨r, hr⟩ := Option.isSome_iff_exists.mp (specialFrom_isSome_of_listed h.kinds.listed pos)
  rw [hr]
  cases r with
  | error nlen => exact safe_syscallReply h.known _
  | ok pos2 => exact safe_request ..

theorem safe_vfsStat (h : s.Sane pid) (path : Path) : Safe (vfsStat pid path) s := by
  unfold vfsStat
  refine Safe.findVnode h.kinds.listed fun r hfind => ?_
  cases r with
  | none => exact safe_request ..
  | some a =>
    dsimp only
    rw [safe_get]
    cases hfs : (s.files.vnodes a).fs with
    | null => exact absurd hfs (fs_ne_null h.kinds (h.kinds.listed.allocated_of_find hfind))
    | nfs =>
      dsimp only
      unfold nfsfsStatOpen
      rw [safe_get, safe_ite]
      exact ⟨fun _ => safe_syscallReply h.known _, fun _ => safe_syscallReply h.known _⟩
    | console =>
      dsimp only
      unfold consoleStat
      rw [safe_get, safe_ite]
      exact ⟨fun _ => safe_syscallReply h.known _, fun _ => safe_syscallReply h.known _⟩

theorem safe_vfsRemove (h : s.Sane pid) (path : Path) : Safe (vfsRemove pid path) s := by
  unfold vfsRemove
  refine Safe.findVnode h.kinds.listed fun r hfind => ?_
  cases r with
  | none => exact safe_request ..
  | some a =>
    dsimp only
    rw [safe_get, safe_ite]
    refine ⟨fun _ => safe_syscallReply h.known _, fun _ => ?_⟩
    cases hfs : (s.files.vnodes a).fs with
    | null => exact absurd hfs (fs_ne_null h.kinds (h.kinds.listed.allocated_of_find hfind))
    | nfs | console => exact safe_syscallReply h.known _

/-- A close of a process changes nothing of its PCB but the tables. -/
theorem Closed.process (hc : Closed s pid fd t) (hp : s.files.sosProcs pid = .pcb p) :
    ∃ q, t.files.sosProcs pid = .pcb q ∧
      (q.state = p.state ∧ q.ipcAccept = p.ipcAccept ∧ q.inc = p.inc) := by
  have hforget : ∀ i, (p.forget fd i).state = p.state ∧ (p.forget fd i).ipcAccept = p.ipcAccept ∧
      (p.forget fd i).inc = p.inc := fun i => by
    unfold Process.forget Process.setFd
    dsimp only
    split <;> exact ⟨rfl, rfl, rfl⟩
  have hunname : ∀ q i a, s.OpenFd pid fd q i →
      (s.files.unname pid q fd i a).sosProcs pid = .pcb (p.forget fd i) := fun q i a ho => by
    obtain rfl := Slot.pcb.inj (hp.symm.trans ho.1)
    rw [Files.unname_sosProcs, Function.update_self]
  cases hc with
  | notOpen => exact ⟨p, hp, rfl, rfl, rfl⟩
  | @kept q i a f ho _ hf _ =>
    refine ⟨p.forget fd i, ?_, hforget i⟩
    rw [replied_files, hf]
    exact hunname q i a ho
  | @last q i a f ho _ hf _ _ _ =>
    refine ⟨p.forget fd i, ?_, hforget i⟩
    rw [replied_files, hf]
    exact (congrFun (Files.drop_sosProcs ..) pid).trans (hunname q i a ho)
  | @console q i a f ho _ hf _ _ =>
    refine ⟨p.forget fd i, ?_, hforget i⟩
    rw [replied_files, hf]
    exact hunname q i a ho

theorem upd_sosProcs_self (hp : f.sosProcs pid = .pcb p)
    (u : Process → Process) : (f.upd pid u).sosProcs pid = .pcb (u p) := by
  rw [Files.upd_pcb hp]
  exact Function.update_self ..

theorem safe_dupTo (hp : s.files.sosProcs pid = .pcb p) (forig : Int) (g : Fin 19) (i : Fin 16) :
    Safe (vfsDupTo pid forig g i) s := by
  have hg : ¬ (g : Int) = vfsNilFile := by
    unfold vfsNilFile
    omega
  unfold vfsDupTo
  rw [safe_bind, wp_updProcess, if_neg hg, safe_bind, wp_updProcess]
  exact safe_syscallReply (Known.of_process (upd_sosProcs_self (upd_sosProcs_self hp _) _)) _

/-- Other data of the process may change. -/
theorem Sane.upd (h : s.Sane pid) {u : Process → Process}
    (hu : ∀ p i, ((u p).files i).vnode = (p.files i).vnode) :
    (s.withFiles (s.files.upd pid u)).Sane pid := by
  cases hp : s.files.sosProcs pid with
  | placeholder => exact absurd hp h.known
  | null =>
    have hsame : s.files.upd pid u = s.files := by
      unfold Files.upd
      rw [hp]
    rw [hsame]
    exact ⟨h.known, h.kinds, h.live⟩
  | pcb p =>
    have hslot := upd_sosProcs_self hp u
    refine ⟨Known.of_process hslot, h.kinds.upd pid u, fun q i a hq ha => ?_⟩
    obtain rfl := Slot.pcb.inj (hslot.symm.trans hq)
    rw [hu] at ha
    have halloc := h.live p i a hp ha
    rw [withFiles, Files.upd_pcb hp]
    exact halloc

theorem safe_vfsDup (h : s.Sane pid) (forig fdup : Int) : Safe (vfsDup pid forig fdup) s := by
  unfold vfsDup
  refine Safe.getVfile h.known rfl fun p i ho => ?_
  dsimp only
  rw [safe_ite]
  refine ⟨fun _ => safe_syscallReply h.known _, fun hrange => ?_⟩
  by_cases hnil : fdup = vfsNilFile
  · rw [if_pos hnil]
    cases hfd : p.freeFd with
    | none =>
      simp only [pure_bind, if_true]
      exact safe_syscallReply h.known _
    | some g =>
      simp only [pure_bind]
      exact safe_dupTo ho.1 forig g i
  · rw [if_neg hnil]
    obtain ⟨g, rfl⟩ : ∃ g : Fin 19, fdup = g := ⟨⟨fdup.toNat, by omega⟩, by simp; omega⟩
    simp only [pure_bind]
    refine Safe.bind (safe_getVfile h.known g false) (getVfile_spec g false) fun r u hr => ?_
    cases r with
    | none =>
      obtain ⟨rfl, -⟩ := hr
      exact safe_dupTo ho.1 forig g i
    | some x =>
      obtain ⟨q, j⟩ := x
      obtain ⟨rfl, hq⟩ := hr
      dsimp only
      rw [safe_bind, wp_updProcess]
      have hoff := h.upd (u := ({ · with ipcAccept := .none })) fun _ _ => rfl
      refine Safe.bind (safe_vfsClose hoff g) (vfsClose_spec pid g) fun _ v hv => ?_
      rw [safe_bind, wp_updProcess]
      obtain ⟨q', hq', -⟩ := hv.process (upd_sosProcs_self hq.1 _)
      exact safe_dupTo (upd_sosProcs_self hq' _) forig g i

/-! ## Callbacks -/

theorem safe_removeRequest (rq : NfsRequest) : Safe (removeRequest rq) s :=
  (removeRequest_spec rq).mono (fun _ _ _ => trivial) fun _ _ h => h

theorem Safe.remove {m : VfsM Unit} (h : Safe m s) (rq : NfsRequest) :
    Safe (do m; removeRequest rq) s :=
  safe_bind.mpr (h.imp fun _ _ _ => safe_removeRequest rq)

theorem safe_lookupCb (h : s.Known rq.pid) (hk : s.files.Kinds c) (ha : s.files.allocated a = true)
    (he : (s.files.vnodes a).extra = .nfsFile none) : Safe (lookupCb rq a mode ans) s := by
  unfold lookupCb
  rw [safe_get, safe_ite]
  refine ⟨fun _ => ?_, fun _ => ?_⟩
  · rw [safe_ite]
    refine ⟨fun hnull => by simp [he] at hnull, fun _ => ?_⟩
    rw [safe_modifyFiles]
    refine Safe.remove (safe_vfsOpenDone ?_ ?_ fun _ => ⟨?_, ?_⟩) rq
    · exact h
    · simpa [withFiles, Files.cpStats, VNode.Small] using hk.small a
    · simp [withFiles, Files.cpStats]
    · exact ha
  · rw [safe_ite]
    refine ⟨fun _ => wp_modifyNfs.mpr trivial, fun _ => ?_⟩
    rw [safe_modifyFiles]
    refine Safe.remove (safe_vfsOpenDone ?_ ?_ fun _ => ⟨?_, ?_⟩) rq
    · exact h
    · simpa [withFiles, Files.freeNfsfile, VNode.Small] using hk.small a
    · simp [withFiles, Files.freeNfsfile]
    · exact ha

theorem safe_readCb (h : s.Known rq.pid) :
    Safe (readCb rq a fd ans) s := by
  unfold readCb
  dsimp only
  rw [safe_ite]
  refine ⟨fun _ => (safe_vfsReadDone h ..).remove rq, fun _ => ?_⟩
  rw [safe_modifyFiles]
  refine Safe.remove (safe_vfsReadDone ?_ ..) rq
  exact h

theorem safe_writeCb {nbyte : Nat} (h : s.Known rq.pid) :
    Safe (writeCb rq a fd nbyte ans) s := by
  unfold writeCb
  dsimp only
  rw [safe_ite]
  refine ⟨fun _ => (safe_vfsWriteDone h ..).remove rq, fun _ => ?_⟩
  rw [safe_modifyFiles]
  refine Safe.remove (safe_vfsWriteDone ?_ ..) rq
  exact h

theorem safe_getdirentCb {pos cpos : Int} {nbyte : Nat}
    (h : s.Known rq.pid) (hpos : cpos ≤ pos) : Safe (getdirentCb rq pos nbyte cpos ans) s := by
  unfold getdirentCb
  rw [safe_ite]
  refine ⟨fun _ => (safe_syscallReply h _).remove rq, fun _ => ?_⟩
  rw [safe_ite]
  refine ⟨fun hin => ?_, fun _ => ?_⟩
  · rw [safe_ite]
    refine ⟨fun hlt => absurd hlt (by omega), fun _ => ?_⟩
    have hlt : (pos - cpos).toNat < ans.filenames.length := by omega
    rw [List.getElem?_eq_getElem hlt]
    exact (safe_syscallReply h _).remove rq
  · rw [safe_ite]
    refine ⟨fun _ => ?_, fun _ => (safe_syscallReply h _).remove rq⟩
    rw [safe_bind, wp_modifyNfs]
    exact wp_modifyNfs.mpr trivial

theorem safe_serialReadCallback (h : ∀ r ∈ s.console.reader, s.Known r.pid) (newline : Bool) :
    Safe (serialReadCallback newline) s := by
  unfold serialReadCallback
  rw [safe_get]
  cases hr : s.console.reader with
  | none => exact safe_pure
  | some r =>
    dsimp only
    rw [safe_ite]
    refine ⟨fun _ => ?_, fun _ => wp_modifyConsole.mpr trivial⟩
    rw [safe_bind, wp_modify, safe_bind]
    refine Wp.imp (safe_vfsReadDone ?_ ..) fun _ _ _ => wp_modifyConsole.mpr trivial
    exact h r hr

end Sos.Vfs
