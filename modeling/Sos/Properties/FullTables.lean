import Sos.Properties.OneReply

/-!
# Opening a file with a table full

A process that has no descriptor or no open file to spare cannot open another file. `vfs_open` asks
`findNextFd` beforehand, but takes both results in one variable: it is stopped only if both tables
are full. With one of them full the file is looked up, or made anew, and the open fails afterwards.
-/

namespace Sos.Vfs

open Hoare

variable {s t : Vfs} {pid : Pid} {p : Process} {path : Path} {mode readers writers block : Nat}

/-- The path that is opened: the console may stand for the standard input. -/
def redirected (p : Process) (path : Path) : Path :=
  if path = stdoutFn then p.fin.getD path else path

/-- The call is answered with `SOS_VFS_NOMORE`, and that is all it does. -/
structure OnlyRefused (s : Vfs) (pid : Pid) (t : Vfs) : Prop where
  reply : ∃ c : Caller, c.pid = pid ∧ t.replies = s.replies ++ [⟨pid, [vfsNomore], c, none⟩]
  files : t.files = s.files
  nfs : t.nfs = s.nfs
  console : t.console = s.console

/-- Neither table has room. -/
def BothFull (p : Process) : Prop := p.freeFd = none ∧ p.freeFile = none

theorem canOpenMore_iff : p.canOpenMore = true ↔ ¬ BothFull p := by
  unfold Process.canOpenMore BothFull
  cases p.freeFd <;> cases p.freeFile <;> simp

/-- What the checks answer after the first is not `SOS_VFS_NOMORE`. -/
theorem openPath_of_room (h : ¬ BothFull p) (path : Path) (mode : Nat) :
    openPath p path mode = .ok (redirected p path) ∨
      ∃ rval, openPath p path mode = .error rval ∧ rval ≠ vfsNomore := by
  unfold openPath redirected
  rw [if_neg (by simp [canOpenMore_iff.mpr h])]
  split
  · exact .inr ⟨_, rfl, by decide⟩
  · split
    · exact .inr ⟨_, rfl, by decide⟩
    · left
      split <;> rfl

/-- A file that is not open is asked for over NFS. -/
theorem vfsOpen_requests {path' : Path} (hp : s.files.sosProcs pid = .pcb p)
    (hpath : openPath p path mode = .ok path') (hnew : s.files.findVnode path' = some none) :
    Wp (vfsOpen pid path mode readers writers block) s
      (fun _ t => t.nfs.requests.length = s.nfs.requests.length + 1) fun _ _ => True := by
  have hlink : ∀ s₁ : Vfs, s₁.nfs = s.nfs → Wp (do
      modifyFiles fun s => s.setVnode block { s.vnodes block with readers := 0, writers := 0 }
      nfsfsOpen pid block path' mode
      modifyFiles fun s => s.addVnode block) s₁
      (fun _ t => t.nfs.requests.length = s.nfs.requests.length + 1) fun _ _ => True := by
    intro s₁ hs₁
    refine (linkNew_spec pid block path' mode).imp ?_
    rintro _ t rfl
    simp [withFiles, requested, hs₁]
  unfold vfsOpen
  rw [wp_bind, wp_get, hp]
  dsimp only
  rw [hpath]
  dsimp only
  unfold Vfs.findVnode
  rw [wp_bind, wp_bind, wp_get, hnew]
  dsimp only
  rw [wp_pure]
  dsimp only
  rw [wp_bind, wp_modifyFiles, wp_bind, wp_modifyFiles, wp_bind, wp_get]
  split
  · rw [wp_bind]
    refine (freeVnode_spec block).mono ?_ fun _ _ _ => trivial
    rintro _ s₁ ⟨rfl, -⟩
    rw [wp_bind]
    refine (wp_syscallReply ?_).mono (fun _ _ h => h) fun _ _ _ => trivial
    exact hlink _ (replied_nfs ..)
  · rw [wp_bind, wp_modifyFiles]
    exact hlink _ rfl

theorem vfsOpen_refused {rval : Int} (hp : s.files.sosProcs pid = .pcb p)
    (hpath : openPath p path mode = .error rval) :
    Returns (vfsOpen pid path mode readers writers block) s () (s.replied pid [rval]) := by
  unfold vfsOpen syscallReply syscallReplyV
  rw [Returns, wp_bind, wp_get, hp]
  dsimp only
  rw [hpath]
  dsimp only
  rw [wp_bind, wp_get, hp]
  exact wp_modify.mpr ⟨rfl, rfl⟩

/-- **An open is refused without an effect exactly if both tables are full.** The reply is
`SOS_VFS_NOMORE`, nothing is asked of the NFS library, and vnodes and tables stay as they are. -/
theorem open_only_refused_iff (hen : Enabled s (.open pid path mode readers writers block))
    (hp : s.process? pid = some p) (hnew : s.files.findVnode (redirected p path) = some none) :
    (∃ t, handle (.open pid path mode readers writers block) s = .ok () t ∧ OnlyRefused s pid t) ↔
      BothFull p := by
  have hslot : (s.called pid true).files.sosProcs pid = .pcb p := slot_of_process? hp
  have hans : answerable s.files pid = true := (hen.2 pid rfl).answerable
  -- the call is answered with `rval` and does nothing else
  have hreplied : ∀ rval : Int, ((s.called pid true).replied pid [rval]).replies =
      s.replies ++ [⟨pid, [rval], (s.called pid true).caller, none⟩] := by
    intro rval
    unfold replied
    exact congrArg replies (if_pos hans)
  constructor
  · rintro ⟨t, hrun, href⟩
    by_contra hroom
    rcases openPath_of_room hroom path (mode % 256) with hpath | ⟨rval, hpath, hne⟩
    · have hreq := (wp_serve.mpr (vfsOpen_requests hslot hpath hnew)).ok hrun
      rw [href.nfs] at hreq
      exact absurd hreq (Nat.ne_of_lt (Nat.lt_succ_self _))
    · obtain ⟨c, -, hreply⟩ := href.reply
      have ht := (wp_serve.mpr (vfsOpen_refused hslot hpath)).ok hrun
      rw [ht.2, hreplied] at hreply
      simp [hne] at hreply
  · intro hfull
    have hpath : openPath p path (mode % 256) = .error vfsNomore := by
      have hno : p.canOpenMore = false := by
        rw [Bool.eq_false_iff, ne_eq, canOpenMore_iff]
        exact not_not_intro hfull
      unfold openPath
      rw [hno]
      rfl
    have hrun : Returns (handle (.open pid path mode readers writers block)) s ()
        ((s.called pid true).replied pid [vfsNomore]) :=
      wp_serve.mpr (vfsOpen_refused hslot hpath)
    have hconsole : ((s.called pid true).replied pid [vfsNomore]).console = s.console := by
      unfold replied
      split <;> rfl
    exact ⟨_, hrun.run, ⟨_, rfl, hreplied _⟩, replied_files .., replied_nfs .., hconsole⟩

/-- Process 1 opens the console for writing until it has no open file left; three descriptors are
still free. -/
def sixteenOpens : List Event :=
  List.replicate 16 (.open 1 stdoutFn fmWrite fmUnlimitedRw fmUnlimitedRw 200)

/-- With three duplicates its descriptors are used up as well. -/
theorem open_only_refused_iff_bothFull :
    ∃ s t p, Reachable (fun _ _ => True) s ∧ s.process? 1 = some p ∧ BothFull p ∧
      Step s (.open 1 [97] fmWrite fmUnlimitedRw fmUnlimitedRw 200) t ∧ OnlyRefused s 1 t := by
  obtain ⟨s, hr, hen, p, hp, hnew, hfull⟩ := reachable_of_run (fun _ _ => True) 1
    (sixteenOpens ++ List.replicate 3 (.dup 1 0 vfsNilFile))
    (fun s => Enabled s (.open 1 [97] fmWrite fmUnlimitedRw fmUnlimitedRw 200) ∧
      ∃ p ∈ s.process? 1, s.files.findVnode (redirected p [97]) = some none ∧
        p.freeFd = none ∧ p.freeFile = none) (by decide +kernel)
  obtain ⟨t, ht, href⟩ := (open_only_refused_iff hen hp hnew).mpr hfull
  exact ⟨s, t, p, hr, hp, hfull, ⟨hen, ht⟩, href⟩

/-! ## One table full -/

/-- The seventeenth file, which is made anew before the open fails. -/
theorem seventeenth_open_creates :
    ∃ s t p, Reachable (fun _ _ => True) s ∧
      Step s (.open 1 [97] fmWrite fmUnlimitedRw fmUnlimitedRw 200) t ∧
      s.process? 1 = some p ∧ p.freeFile = none ∧
      s.files.findVnode (redirected p [97]) = some none ∧
      (.create [97] ∈ t.nfs.rpcs.map (·.proc)) ∧ ¬ OnlyRefused s 1 t := by
  obtain ⟨s, t, hr, hst, ⟨p, hp, hfull, hnew⟩, hcreate, hidle⟩ := step_of_run (fun _ _ => True) 1
    sixteenOpens (.open 1 [97] fmWrite fmUnlimitedRw fmUnlimitedRw 200)
    (fun s t => (∃ p ∈ s.process? 1, p.freeFile = none ∧
        s.files.findVnode (redirected p [97]) = some none) ∧
      RpcProc.create [97] ∈ t.nfs.rpcs.map (·.proc) ∧ s.nfs.rpcs = []) (by decide +kernel)
  refine ⟨s, t, p, hr, hst, hp, hfull, hnew, hcreate, fun href => ?_⟩
  rw [href.nfs, hidle] at hcreate
  simp at hcreate

end Sos.Vfs
