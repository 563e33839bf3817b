import Sos.Properties.LiveRequests
import Sos.Run

/-!
# The standard files of a new process

`process_prepare2` has the root server open the standard output of a process and then, by another
open or a `dup`, the standard error. The descriptors are those that are free when an open is done,
and an open of a file that is not known yet is done when NFS has answered. As NFS requests are
answered in order, the descriptors are right if both opens wait for NFS, or none does; they are not
if only the first does (`Overtakes`), or if the `dup` comes before its file is open.
-/

namespace Sos

open Hoare

variable {path : Path} {i : Fin 16} {fd : Fin 19} {readers writers block : Nat} {forig fdup : Int}
  {ans : RpcAnswer} {fdout fderr : Option Path}

/-! ## The tables -/

namespace Process

variable {p q r : Process} {as : List Nat} {ns : List Nat}

/-- The tables and the standard input are the same, up to file positions. -/
structure SameTables (p q : Process) : Prop where
  fds : q.fds = p.fds
  fin : q.fin = p.fin
  file : ∀ i, (q.files i).vnode = (p.files i).vnode ∧ (q.files i).fmode = (p.files i).fmode

theorem SameTables.refl (p : Process) : p.SameTables p := ⟨rfl, rfl, fun _ => ⟨rfl, rfl⟩⟩

/-- The files in use are open for writing, on the vnodes `as` in order, and the descriptors in use
are those of the files `ns`. -/
structure Holds (p : Process) (as ns : List Nat) : Prop where
  fds : ∀ g : Fin 19, p.fds g = (ns[g.val]?.map Int.ofNat).getD vfsNilFile
  vnode : ∀ i : Fin 16, (p.files i).vnode = as[i.val]?
  fmode : ∀ i : Fin 16, i.val < as.length → (p.files i).fmode = fmWrite

theorem Holds.sameTables (h : p.Holds as ns) (hs : p.SameTables q) : q.Holds as ns where
  fds := fun g => by rw [hs.fds, h.fds]
  vnode := fun i => by rw [(hs.file i).1, h.vnode]
  fmode := fun i hi => by rw [(hs.file i).2, h.fmode i hi]

theorem holds_nil (h : p.VfilesInit) : p.Holds [] [] where
  fds := h.1
  vnode := fun i => by rw [h.2 i]; rfl
  fmode := fun _ hi => absurd hi (Nat.not_lt_zero _)

/-- `findNextFd` finds the lowest. -/
theorem find?_finRange_le {n : Nat} {q : Fin n → Bool} {i j : Fin n}
    (h : (List.finRange n).find? q = some i) (hj : q j = true) : i ≤ j := by
  obtain ⟨-, k, hk, rfl, hlow⟩ := List.find?_eq_some_iff_getElem.mp h
  by_contra hlt
  have hjk : j.val < k := by simpa [Fin.lt_def] using hlt
  have := hlow j.val hjk
  simp [hj] at this

theorem findNextFd_eq_some (h : p.findNextFd = some (fd, i)) :
    p.freeFd = some fd ∧ p.freeFile = some i := by
  unfold findNextFd at h
  split at h
  · next fd' i' hfd hi =>
    obtain ⟨rfl, rfl⟩ : fd' = fd ∧ i' = i := by simpa using h
    exact ⟨hfd, hi⟩
  · simp at h

/-- The descriptor and the file that are found are the first ones behind those in use. -/
theorem Holds.findNextFd (h : p.Holds as (List.range as.length))
    (hfree : p.findNextFd = some (fd, i)) (hlen : as.length < 16) :
    fd.val = as.length ∧ i.val = as.length := by
  obtain ⟨hfd, hi⟩ := findNextFd_eq_some hfree
  have hnil := freeFd_eq hfd
  have hnone := freeFile_eq hi
  rw [h.fds] at hnil
  rw [h.vnode, List.getElem?_eq_none_iff] at hnone
  have hfdle : fd ≤ ⟨as.length, by omega⟩ := find?_finRange_le hfd (by simp [h.fds])
  have hile : i ≤ ⟨as.length, by omega⟩ := find?_finRange_le hi (by simp [h.vnode])
  refine ⟨Nat.le_antisymm hfdle ?_, Nat.le_antisymm hile hnone⟩
  by_contra hlt
  rw [List.getElem?_range (by omega)] at hnil
  simp [vfsNilFile] at hnil

theorem getElem?_concat_of_ne {α : Type} {l : List α} {x : α} {n : Nat} (h : n ≠ l.length) :
    (l ++ [x])[n]? = l[n]? := by
  rcases Nat.lt_or_gt_of_ne h with hlt | hgt
  · exact List.getElem?_append_left hlt
  · rw [List.getElem?_eq_none (by simp; omega), List.getElem?_eq_none (by omega)]

/-- The next file that is opened comes after the others. -/
theorem Holds.install (h : p.Holds as (List.range as.length))
    (hfree : p.findNextFd = some (fd, i)) (hlen : as.length < 16) (a : Nat) :
    ((p.setFile i { vnode := some a, fmode := fmWrite, fp := 0, ref := 1 }).setFd fd i).Holds
      (as ++ [a]) (List.range (as ++ [a]).length) := by
  obtain ⟨hfd, hi⟩ := h.findNextFd hfree hlen
  rw [setFd_coe]
  refine ⟨fun g => ?_, fun j => ?_, fun j hj => ?_⟩
  · by_cases hg : g = fd
    · subst hg
      simp [hfd, hi]
    · have hne : g.val ≠ as.length := fun he => hg (Fin.ext (he.trans hfd.symm))
      rw [List.length_append, List.length_singleton, List.range_succ,
        getElem?_concat_of_ne (by simpa using hne), ← h.fds]
      exact Function.update_of_ne hg ..
  · by_cases hj : j = i
    · subst hj
      simp [setFile, hi]
    · have hne : j.val ≠ as.length := fun he => hj (Fin.ext (he.trans hi.symm))
      rw [getElem?_concat_of_ne hne, ← h.vnode]
      simp [setFile, hj]
  · by_cases hji : j = i
    · subst hji
      simp [setFile]
    · have hne : j.val ≠ as.length := fun he => hji (Fin.ext (he.trans hi.symm))
      rw [List.length_append, List.length_singleton] at hj
      simpa [setFile, hji] using h.fmode j (by omega)

theorem Holds.vfile?_eq_some (h : p.Holds as ns) {g : Fin 19}
    (hg : ns[g.val]? = some i.val) (hi : i.val < as.length) : p.vfile? g = some i := by
  refine Process.vfile?_eq_some.mpr ⟨g, rfl, ?_, ?_⟩
  · rw [h.fds, hg]
    rfl
  · rw [h.vnode, List.getElem?_eq_getElem hi]
    rfl

theorem Holds.vfile?_eq_none (h : p.Holds as ns) {g : Fin 19} (hg : ns[g.val]? = none) :
    p.vfile? g = none := by
  rw [Option.eq_none_iff_forall_ne_some]
  intro i hi
  obtain ⟨g', hg', hfd, -⟩ := Process.vfile?_eq_some.mp hi
  obtain rfl : g = g' := Fin.ext (by omega)
  rw [h.fds, hg] at hfd
  simp only [Option.map_none, Option.getD_none, vfsNilFile] at hfd
  omega

/-- `fds[1] = fds[0]`, with one file open. -/
theorem Holds.dup {a : Nat} (h : p.Holds [a] [0]) (n : Int) :
    ((p.setFd (1 : Fin 19) ((p.fdFile? 0).getD vfsNilFile)).setFile 0
      { p.files 0 with ref := n }).Holds [a] [0, 0] := by
  have hzero : p.fdFile? 0 = some 0 := (fdFile?_coe p 0).trans (congrArg some (h.fds 0))
  rw [hzero, setFd_coe]
  refine ⟨fun g => ?_, fun i => ?_, fun i hi => ?_⟩
  · by_cases hg : g = 1
    · subst hg
      rfl
    · have hne : g.val ≠ [0].length := fun he => hg (Fin.ext he)
      rw [show [0, 0] = [0] ++ [0] from rfl, getElem?_concat_of_ne hne, ← h.fds]
      exact Function.update_of_ne hg ..
  · by_cases hi : i = 0
    · subst hi
      exact h.vnode 0
    · rw [← h.vnode]
      exact congrArg VFile.vnode (Function.update_of_ne hi ..)
  · obtain rfl : i = 0 := by
      rw [List.length_singleton] at hi
      exact Fin.ext (by simpa using hi)
    exact h.fmode 0 (by simp)

end Process

/-! ## Names -/

namespace Files

variable {f g h : Files} {a : Nat} {pid : Pid} {p : Process}

/-- The vnodes keep their names. -/
structure SamePaths (f g : Files) : Prop where
  path : ∀ a, (g.vnodes a).path = (f.vnodes a).path

theorem SamePaths.trans (hf : f.SamePaths g) (hg : g.SamePaths h) : f.SamePaths h :=
  ⟨fun a => (hg.path a).trans (hf.path a)⟩

theorem Quiet.samePaths (hq : f.Quiet g) : f.SamePaths g where
  path := fun a => by
    obtain ⟨_, _, _, hv⟩ := hq.vnode a
    rw [hv]

theorem Relinked.samePaths (hr : f.Relinked g) : f.SamePaths g where
  path := fun a => by
    obtain ⟨_, _, hv⟩ := hr.vnode a
    rw [hv]

theorem samePaths_setVnode {v : VNode} (hv : v.path = (f.vnodes a).path) :
    f.SamePaths (f.setVnode a v) where
  path := fun b => by
    by_cases hb : b = a
    · subst hb
      rw [setVnode_vnodes_self, hv]
    · rw [setVnode_vnodes_of_ne _ _ hb]

theorem samePaths_drop (f : Files) (a : Nat) : f.SamePaths (f.drop a) := by
  have hfree : (f.removeVnode a).SamePaths ((f.removeVnode a).freeNfsfile a) :=
    samePaths_setVnode rfl
  exact ⟨((f.relinked_removeVnode a).samePaths.trans hfree).path⟩

theorem samePaths_openErr (f : Files) (a : Nat) : f.SamePaths (f.openErr a) := by
  unfold openErr
  split
  · exact f.samePaths_drop a
  · exact ⟨fun _ => rfl⟩

theorem samePaths_unname (f : Files) (pid : Pid) (p : Process) (fd : Int) (i : Fin 16) (a : Nat) :
    f.SamePaths (f.unname pid p fd i a) := by
  unfold unname
  split
  · have hset : (f.setProcess pid (p.forget fd i)).SamePaths ((f.setProcess pid
        (p.forget fd i)).setVnode a ((f.vnodes a).decreaseRefs (p.files i).fmode)) :=
      samePaths_setVnode rfl
    exact ⟨hset.path⟩
  · exact ⟨fun _ => rfl⟩

theorem samePaths_upd (f : Files) (pid : Pid) (u : Process → Process) :
    f.SamePaths (f.upd pid u) := by
  unfold upd
  split <;> exact ⟨fun _ => rfl⟩

theorem samePaths_dupTo (f : Files) (pid : Pid) (forig fdup : Int) (i : Fin 16) :
    f.SamePaths (f.dupTo pid forig fdup i) :=
  (f.samePaths_upd pid _).trans (samePaths_upd _ pid _)

/-- `find_vnode` finds a vnode with the name. -/
theorem findVnode_path (hf : f.findVnode path = some (some a)) :
    (f.vnodes a).path = path := by
  suffices hfrom : ∀ n b, f.findVnodeFrom path n b = some (some a) → (f.vnodes a).path = path from
    hfrom _ _ hf
  intro n
  induction n with
  | zero => intro b hb; cases b <;> simp [findVnodeFrom] at hb
  | succ n ih =>
    intro b hb
    cases b with
    | none => simp [findVnodeFrom] at hb
    | some b =>
      rw [findVnodeFrom] at hb
      split at hb
      · next hpath =>
        obtain rfl : b = a := by simpa using hb
        exact hpath
      · exact ih _ hb

theorem made_path (f : Files) (a : Nat) (path : Path) (readers writers : Nat) :
    (((f.made a path readers writers).addVnode a).vnodes a).path = path := by
  rw [((f.made a path readers writers).relinked_addVnode a).samePaths.path a]
  simp [made, opening]

theorem made_path_of_ne {b : Nat} (hb : b ≠ a) (path : Path) (readers writers : Nat) :
    (((f.made a path readers writers).addVnode a).vnodes b).path = (f.vnodes b).path := by
  rw [((f.made a path readers writers).relinked_addVnode a).samePaths.path b,
    made_vnodes_of_ne _ _ _ _ hb]

end Files

namespace Vfs

open Files

variable {s t : Vfs} {e : Event} {pid pid' : Pid} {a mode : Nat} {status : Int}

theorem OpenDone.samePaths (ho : OpenDone s pid a mode status t) : s.files.SamePaths t.files := by
  cases ho with
  | gone => exact samePaths_openErr ..
  | failed =>
    rw [replied_files]
    exact samePaths_openErr ..
  | full _ _ hv =>
    rw [replied_files]
    refine SamePaths.trans (samePaths_setVnode ?_) (samePaths_openErr _ a)
    obtain ⟨rfl, -⟩ := VNode.increaseRefs_ok hv
    rfl
  | done _ _ hv =>
    rw [replied_files]
    refine SamePaths.trans (samePaths_setVnode ?_) ⟨fun _ => rfl⟩
    obtain ⟨rfl, -⟩ := VNode.increaseRefs_ok hv
    rfl

theorem Closed.samePaths {fd : Int} (hc : Closed s pid fd t) : s.files.SamePaths t.files := by
  cases hc with
  | notOpen => exact ⟨fun _ => rfl⟩
  | kept _ _ hf _ =>
    rw [replied_files, hf]
    exact samePaths_unname ..
  | @last p i a f _ _ hf _ _ _ =>
    rw [replied_files]
    have hfree : f.SamePaths (f.freeNfsfile a) := samePaths_setVnode rfl
    exact (hf ▸ samePaths_unname ..).trans (hfree.trans (samePaths_drop ..))
  | console _ _ hf _ _ =>
    rw [replied_files, hf]
    exact samePaths_unname ..

theorem Dupped.samePaths (hd : Dupped s pid forig fdup t) :
    s.files.SamePaths t.files := by
  cases hd with
  | refused =>
    rw [replied_files]
    exact ⟨fun _ => rfl⟩
  | copied =>
    rw [replied_files]
    exact samePaths_dupTo ..
  | replaced _ _ _ hu =>
    rw [replied_files]
    exact ((samePaths_upd ..).trans hu.samePaths).trans
      ((samePaths_upd ..).trans (samePaths_dupTo ..))

theorem Answers.samePaths (ha : Answers s pid t) : s.files.SamePaths t.files := by
  obtain ⟨f, n, words, hf, rfl⟩ := ha
  rw [replied_files]
  exact hf.samePaths

theorem Completed.samePaths {token : Nat} (hc : Completed s token ans t) :
    s.files.SamePaths t.files := by
  cases hc with
  | unknown => exact ⟨fun _ => rfl⟩
  | @lookedUp rq a mode u _ _ _ _ ho =>
    have hset : s.files.SamePaths (s.files.setVnode a { s.files.vnodes a with
        extra := .nfsFile (some ans.fh) }) := samePaths_setVnode rfl
    exact (hset.trans (Quiet.cpStats _ a ans.attr).samePaths).trans ho.samePaths
  | missing => exact ⟨fun _ => rfl⟩
  | @failed rq a mode u _ _ _ ho =>
    have hfree : s.files.SamePaths (s.files.freeNfsfile a) := samePaths_setVnode rfl
    exact hfree.trans ho.samePaths
  | answered _ _ ha =>
    have hpaths := ha.samePaths
    exact hpaths
  | more => exact ⟨fun _ => rfl⟩

/-- A vnode keeps its name as long as it is not freed. -/
theorem Step.path_eq (hst : Step s e t) (ha : s.files.allocated a = true) :
    (t.files.vnodes a).path = (s.files.vnodes a).path := by
  cases hst.handled with
  | opened own pid path mode readers writers block he ho =>
    have hne : a ≠ block := by
      rintro rfl
      have hblock := hst.1.1 a (by rw [he]; cases own <;> rfl)
      rw [ha] at hblock
      simp at hblock
    cases ho with
    | null => rfl
    | refused => rw [replied_files]; rfl
    | shared _ _ _ _ hd => exact hd.samePaths.path a
    | made _ _ _ _ hf =>
      rw [hf]
      exact made_path_of_ne hne ..
    | @lockedOut p path' f _ _ _ _ hf =>
      change ((f.addVnode block).vnodes a).path = _
      rw [(f.relinked_addVnode block).samePaths.path a, hf]
      exact congrArg VNode.path (made_vnodes_of_ne _ _ _ _ hne)
  | closed _ _ _ _ hc => exact hc.samePaths.path a
  | dupped _ _ _ _ _ hd => exact hd.samePaths.path a
  | called _ _ _ _ hc =>
    cases hc with
    | silent => rfl
    | answered h => exact h.samePaths.path a
    | requested => rfl
    | reader => rfl
  | completed _ _ _ _ _ hc => exact hc.samePaths.path a
  | typed _ _ ht =>
    cases ht with
    | idle => rfl
    | kept => rfl
    | line _ h => exact h.samePaths.path a
  | reserved => rfl
  | spawned => rfl
  | turned => exact (samePaths_upd ..).path a
  | retired => rfl

/-! ## The tables of other processes -/

theorem OpenDone.sosProcs_of_ne (ho : OpenDone s pid a mode status t) (hne : pid' ≠ pid) :
    t.files.sosProcs pid' = s.files.sosProcs pid' := by
  cases ho with
  | gone => exact congrFun (openErr_sosProcs ..) pid'
  | failed | full =>
    rw [replied_files]
    exact congrFun (openErr_sosProcs ..) pid'
  | done =>
    rw [replied_files]
    exact Function.update_of_ne hne ..

theorem Opened.sosProcs_of_ne
    (ho : Opened s pid path mode readers writers block t) (hne : pid' ≠ pid) :
    t.files.sosProcs pid' = s.files.sosProcs pid' := by
  cases ho with
  | null => rfl
  | refused => rw [replied_files]
  | shared _ _ _ _ hd => exact hd.sosProcs_of_ne hne
  | made _ _ _ _ hf | lockedOut _ _ _ _ hf =>
    rw [hf]
    exact congrFun (addVnode_sosProcs ..) pid'

theorem upd_sosProcs_of_ne (f : Files) (u : Process → Process) (hne : pid' ≠ pid) :
    (f.upd pid u).sosProcs pid' = f.sosProcs pid' := by
  unfold Files.upd
  split
  · exact Function.update_of_ne hne ..
  · rfl

theorem dupTo_slot {f : Files} {p : Process} (hp : f.sosProcs pid = .pcb p) (forig fdup : Int)
    (i : Fin 16) : (f.dupTo pid forig fdup i).sosProcs pid =
      .pcb ((p.setFd fdup ((p.fdFile? forig).getD vfsNilFile)).setFile i
        { p.files i with ref := ((p.files i).ref + 1) % wordLimit }) := by
  have hset : ∀ q, (f.setProcess pid q).sosProcs pid = .pcb q := fun q => Function.update_self ..
  unfold Files.dupTo
  rw [upd_pcb hp, upd_pcb (hset _), setFd_files]
  exact Function.update_self ..

theorem Dupped.sosProcs_of_ne (hd : Dupped s pid forig fdup t)
    (hne : pid' ≠ pid) : t.files.sosProcs pid' = s.files.sosProcs pid' := by
  have hdup : ∀ (f : Files) g i, (f.dupTo pid forig g i).sosProcs pid' = f.sosProcs pid' :=
    fun f g i => (upd_sosProcs_of_ne _ _ hne).trans (upd_sosProcs_of_ne _ _ hne)
  cases hd with
  | refused => rw [replied_files]
  | copied =>
    rw [replied_files]
    exact hdup ..
  | @replaced p i j u g _ _ _ hu =>
    rw [replied_files]
    calc ((u.files.upd pid _).dupTo pid forig g i).sosProcs pid'
        = (u.files.upd pid _).sosProcs pid' := hdup ..
      _ = u.files.sosProcs pid' := upd_sosProcs_of_ne _ _ hne
      _ = (s.files.upd pid _).sosProcs pid' := hu.sosProcs_of_ne hne
      _ = s.files.sosProcs pid' := upd_sosProcs_of_ne _ _ hne

end Vfs

/-! ## The opens of a process -/

/-- The vnode and the mode of an open. -/
def RequestType.opening? : RequestType → Option (Nat × Nat)
  | .lookup a mode => some (a, mode)
  | _ => none

/-- What a request is an open of for the process. -/
def NfsRequest.openingFor (pid : Pid) (rq : NfsRequest) : Option (Nat × Nat) :=
  if rq.pid = pid then rq.rt.opening? else none

/-- The opens of a process that wait for NFS. -/
def Nfs.lookupsOf (n : Nfs) (pid : Pid) : List (Nat × Nat) :=
  n.requests.filterMap (·.openingFor pid)

namespace Nfs

variable {n : Nfs} {head : NfsRequest} {rest : List NfsRequest}

@[simp] theorem lookupsOf_request (n : Nfs) (f : Files) (pid pid' : Pid) (rt : RequestType)
    (c : Caller) : (n.request f pid' rt c).lookupsOf pid =
      n.lookupsOf pid ++ (if pid' = pid then rt.opening? else none).toList := by
  unfold lookupsOf
  rw [request_requests, List.filterMap_append]
  cases hl : (if pid' = pid then rt.opening? else none) <;>
    simp [newRequest, NfsRequest.openingFor, hl]

theorem lookupsOf_remove (hr : n.requests = head :: rest) (f : Files) (pid : Pid) :
    (n.remove f head).lookupsOf pid = rest.filterMap (·.openingFor pid) := by
  unfold lookupsOf
  rw [remove_requests, hr, List.eraseP_cons_of_pos (by simp)]

theorem lookupsOf_cons (hr : n.requests = head :: rest) (pid : Pid) :
    n.lookupsOf pid = (head.openingFor pid).toList ++ rest.filterMap (·.openingFor pid) := by
  unfold lookupsOf
  rw [hr]
  cases hl : head.openingFor pid <;> simp [hl]

end Nfs

namespace Files

variable {f g : Files} {pid : Pid}

/-- A process keeps its tables, up to file positions. -/
structure KeepsTables (f g : Files) (pid : Pid) : Prop where
  tables : ∀ p, f.sosProcs pid = .pcb p → ∃ q, g.sosProcs pid = .pcb q ∧ p.SameTables q

theorem KeepsTables.of_slot (h : g.sosProcs pid = f.sosProcs pid) : f.KeepsTables g pid :=
  ⟨fun p hp => ⟨p, h.trans hp, .refl p⟩⟩

theorem Quiet.keepsTables (hq : f.Quiet g) (pid : Pid) : f.KeepsTables g pid := by
  rcases hq.slot pid with h | ⟨p, fp, hf, hg⟩
  · exact .of_slot h
  · refine ⟨fun q hq => ?_⟩
    obtain rfl := Slot.pcb.inj (hf.symm.trans hq)
    exact ⟨_, hg, rfl, rfl, fun _ => ⟨rfl, rfl⟩⟩

end Files

namespace Vfs

open Files

variable {s t : Vfs} {e : Event} {pid pid' : Pid} {a mode : Nat} {status : Int}

/-- The files that a process has open and those whose opens wait for NFS. -/
def openings (s : Vfs) (pid : Pid) : Nat :=
  ((s.process? pid).map (·.openFiles.length)).getD 0 + (s.nfs.lookupsOf pid).length

/-- What a step of others does to the tables of a process and to its opens: nothing, one of the
opens is done, or one fails. -/
inductive Evolves (s : Vfs) (pid : Pid) (t : Vfs) : Prop
  | same : s.files.KeepsTables t.files pid → t.nfs.lookupsOf pid = s.nfs.lookupsOf pid →
      Evolves s pid t
  | granted {p fd i a mode rest} : s.files.sosProcs pid = .pcb p →
      s.nfs.lookupsOf pid = (a, mode) :: rest → t.nfs.lookupsOf pid = rest →
      p.findNextFd = some (fd, i) → t.files.sosProcs pid = .pcb
        ((p.setFile i { vnode := some a, fmode := mode, fp := 0, ref := 1 }).setFd fd i) →
      Evolves s pid t
  | failed {x rest} : s.nfs.lookupsOf pid = x :: rest → t.nfs.lookupsOf pid = rest →
      t.files.sosProcs pid = s.files.sosProcs pid → Evolves s pid t

/-- The head of the queue is an open that is done or has failed. -/
theorem OpenDone.evolves {u v : Vfs} {head : NfsRequest} {rest : List NfsRequest}
    (ho : OpenDone v head.pid a mode status u) (hr : s.nfs.requests = head :: rest)
    (hrt : head.rt = .lookup a mode) (hprocs : v.files.sosProcs = s.files.sosProcs)
    (hreq : v.nfs.requests = s.nfs.requests) (pid : Pid) : Evolves s pid (u.removed head) := by
  have hrest : (u.removed head).nfs.lookupsOf pid = rest.filterMap (·.openingFor pid) := by
    refine Nfs.lookupsOf_remove ?_ _ pid
    rw [ho.frame.nfs, hreq, hr]
  have hcons := Nfs.lookupsOf_cons hr pid
  by_cases hpid : head.pid = pid
  · subst hpid
    simp only [NfsRequest.openingFor, hrt, RequestType.opening?, if_pos] at hcons
    have hslot := congrFun hprocs head.pid
    cases ho with
    | gone =>
      refine .failed hcons hrest (Eq.trans ?_ hslot)
      exact congrFun (openErr_sosProcs ..) _
    | failed | full =>
      refine .failed hcons hrest (Eq.trans ?_ hslot)
      rw [removed, replied_files]
      exact congrFun (openErr_sosProcs ..) _
    | done hp _ _ hfree =>
      refine .granted (hslot.symm.trans hp) hcons hrest hfree ?_
      rw [removed, replied_files]
      exact Function.update_self ..
  · have hnone : head.openingFor pid = none := if_neg hpid
    rw [hnone, Option.toList_none, List.nil_append] at hcons
    refine .same (.of_slot ?_) (hrest.trans hcons.symm)
    exact (ho.sosProcs_of_ne (Ne.symm hpid)).trans (congrFun hprocs pid)

theorem Completed.evolves {i : Nat} {rpc : Rpc}
    (hc : Completed (s.received i) rpc.token ans t) (hser : s.nfs.Serial)
    (hi : s.nfs.rpcs[i]? = some rpc) (pid : Pid) : Evolves s pid t := by
  obtain ⟨head, rest, hr, -, htok, -, -⟩ := hser.received hi
  have hr' : (s.received i).nfs.requests = head :: rest := hr
  have hfind := Nfs.find?_token hr' htok
  cases hc with
  | unknown => exact .same (.of_slot rfl) rfl
  | lookedUp hrq hrt _ _ ho =>
    obtain rfl := Option.mem_unique hrq hfind
    exact ho.evolves hr hrt rfl rfl pid
  | missing => exact .same (.of_slot rfl) rfl
  | failed hrq hrt _ ho =>
    obtain rfl := Option.mem_unique hrq hfind
    exact ho.evolves hr hrt rfl rfl pid
  | @answered rq u hrq hrt ha =>
    obtain rfl := Option.mem_unique hrq hfind
    have hnone : rq.openingFor pid = none := by
      unfold NfsRequest.openingFor
      cases hl : rq.rt with
      | lookup a mode => exact absurd hl (hrt a mode)
      | _ => exact ite_self _
    have hcons := Nfs.lookupsOf_cons hr pid
    rw [hnone, Option.toList_none, List.nil_append] at hcons
    have hnfs := ha.nfs
    refine .same ?_ ?_
    · obtain ⟨f, n, words, hf, rfl⟩ := ha
      rw [removed, replied_files]
      exact hf.keepsTables pid
    · refine (Nfs.lookupsOf_remove ?_ _ pid).trans hcons.symm
      rw [hnfs]
      exact hr
  | @more rq pos nbyte cpos cpos' cookie hrq hrt _ =>
    obtain rfl := Option.mem_unique hrq hfind
    refine .same (.of_slot rfl) ?_
    change (s.nfs.requests.map fun r =>
      if r.id = rq.id then { r with rt := .dir pos nbyte cpos' } else r).filterMap
        (·.openingFor pid) = s.nfs.lookupsOf pid
    rw [List.filterMap_map]
    refine List.filterMap_congr fun r hmem => ?_
    by_cases hid : r.id = rq.id
    · obtain rfl : r = rq := by
        rw [hr] at hmem
        rcases List.mem_cons.mp hmem with h | h
        · exact h
        · exact absurd hid (hser.toOrdered.rest_id_ne hr r h)
      simp [NfsRequest.openingFor, hrt, RequestType.opening?]
    · simp [hid]

/-- Something is done by, for or to the process. -/
def Event.Concerns (e : Event) (pid : Pid) : Prop :=
  match e with
  | .zombie pid' | .removePcb pid' => pid' = pid
  | e => e.client = some pid ∨ e.behalf = some pid

theorem Event.ne_of_caller (h : ¬ e.Concerns pid)
    (hc : e.client = some pid' ∨ e.behalf = some pid') : pid ≠ pid' := by
  rintro rfl
  refine h ?_
  unfold Event.Concerns
  split
  · simp [Event.client, Event.behalf] at hc
  · simp [Event.client, Event.behalf] at hc
  · exact hc

/-- An open for another process. -/
theorem Opened.lookupsOf_of_ne
    (ho : Opened s pid' path mode readers writers block t) (hne : pid ≠ pid') :
    t.nfs.lookupsOf pid = s.nfs.lookupsOf pid := by
  cases ho with
  | null => rfl
  | refused => rw [replied_nfs]
  | shared _ _ _ _ hd => rw [hd.frame.nfs]
  | @made p path' f _ _ _ _ _ =>
    change (s.nfs.request f pid' (.lookup block mode) s.caller).lookupsOf pid = _
    simp [Ne.symm hne]
  | @lockedOut p path' f _ _ _ _ _ =>
    change ((s.replied pid' [vfsError]).nfs.request f pid' (.lookup block mode) _).lookupsOf pid = _
    simp [Ne.symm hne]

instance (e : Event) (pid : Pid) : Decidable (e.Concerns pid) := by
  unfold Event.Concerns
  rcases e <;> infer_instance

/-- A step that does not concern the process. -/
theorem Step.evolves (hst : Step s e t) (hser : s.nfs.Serial) (he : ¬ e.Concerns pid)
    (hproc : (s.process? pid).isSome) : Evolves s pid t := by
  have hfree : ∀ pid', s.process? pid' = none → pid ≠ pid' := by
    rintro pid' hnone rfl
    rw [hnone] at hproc
    simp at hproc
  cases hst.handled with
  | opened own pid' path mode readers writers block heq ho =>
    have hne : pid ≠ pid' := Event.ne_of_caller he (by
      rw [heq]
      cases own <;> simp [Event.client, Event.behalf])
    exact .same (.of_slot (ho.sosProcs_of_ne hne)) (ho.lookupsOf_of_ne hne)
  | closed own pid' fd heq hc =>
    have hne : pid ≠ pid' := Event.ne_of_caller he (by
      rw [heq]
      cases own <;> simp [Event.client, Event.behalf])
    exact .same (.of_slot (hc.sosProcs_of_ne hne)) (by rw [hc.frame.nfs]; rfl)
  | dupped own pid' forig fdup heq hd =>
    have hne : pid ≠ pid' := Event.ne_of_caller he (by
      rw [heq]
      cases own <;> simp [Event.client, Event.behalf])
    exact .same (.of_slot (hd.sosProcs_of_ne hne)) (by rw [hd.frame.nfs]; rfl)
  | called own pid' _ _ hc =>
    cases hc with
    | silent => exact .same (.of_slot rfl) rfl
    | answered ha =>
      refine .same ?_ (by rw [ha.nfs]; rfl)
      obtain ⟨f, n, words, hf, rfl⟩ := ha
      rw [replied_files]
      exact hf.keepsTables pid
    | @requested rt hrt =>
      refine .same (.of_slot rfl) ?_
      have hnone : rt.opening? = none := by
        cases rt with
        | lookup => exact absurd hrt id
        | _ => rfl
      change (s.nfs.request s.files pid' rt _).lookupsOf pid = _
      simp [hnone]
    | reader => exact .same (.of_slot rfl) rfl
  | completed i rpc ans _ hi hc => exact hc.evolves hser hi pid
  | typed newline _ ht =>
    cases ht with
    | idle | kept => exact .same (.of_slot rfl) rfl
    | line _ ha =>
      have hnfs := ha.nfs
      refine .same ?_ (congrArg (Nfs.lookupsOf · pid) hnfs)
      obtain ⟨f, n, words, hf, rfl⟩ := ha
      have hkeeps := hf.keepsTables pid
      rw [replied_files]
      exact hkeeps
  | reserved pid' heq | spawned pid' p heq =>
    exact .same (.of_slot (Function.update_of_ne (hfree pid' (heq ▸ hst.1).2) ..)) rfl
  | turned pid' state heq =>
    refine .same ⟨fun p hp => ?_⟩ rfl
    by_cases hpid : pid = pid'
    · subst hpid
      refine ⟨{ p with state := state }, ?_, rfl, rfl, fun _ => ⟨rfl, rfl⟩⟩
      change (s.files.upd pid _).sosProcs pid = _
      rw [upd_pcb hp]
      exact Function.update_self ..
    · exact ⟨p, (upd_sosProcs_of_ne _ _ hpid).trans hp, .refl p⟩
  | retired pid' p heq hp =>
    refine .same (.of_slot (Function.update_of_ne ?_ ..)) rfl
    rintro rfl
    rw [heq] at he
    exact he rfl

/-! ## The opens in order -/

/-- How far the opens of a process have come, for files named `paths`: the vnodes `as` are open and
`ls` are being looked up. `copies` are the files of further descriptors, made by `dup`. -/
structure Opening (s : Vfs) (pid : Pid) (paths : List Path) (copies : List Nat) (p : Process)
    (as ls : List Nat) : Prop where
  slot : s.files.sosProcs pid = .pcb p
  fin : p.fin = none
  holds : p.Holds as (List.range as.length ++ copies)
  lookups : s.nfs.lookupsOf pid = ls.map (·, fmWrite)
  paths : (as ++ ls).map (fun a => (s.files.vnodes a).path) = paths
  done : copies ≠ [] → ls = []

theorem Nfs.mem_lookups {n : Nfs} (h : (a, mode) ∈ n.lookupsOf pid) : a ∈ n.lookups := by
  obtain ⟨rq, hrq, hopening⟩ := List.mem_filterMap.mp h
  refine List.mem_filterMap.mpr ⟨rq, hrq, ?_⟩
  unfold NfsRequest.openingFor at hopening
  split at hopening
  · cases hrt : rq.rt <;> simp_all [RequestType.opening?, RequestType.lookup?]
  · simp at hopening

variable {paths : List Path} {copies : List Nat} {p : Process} {as ls : List Nat}

theorem Opening.allocated (h : Opening s pid paths copies p as ls) (hacc : s.Accounted)
    (haw : s.Awaiting) (hlen : as.length ≤ 16) : ∀ a ∈ as ++ ls, s.files.allocated a = true := by
  intro a ha
  rcases List.mem_append.mp ha with hopen | hlook
  · obtain ⟨i, hi, rfl⟩ := List.getElem_of_mem hopen
    have hv : (p.files ⟨i, by omega⟩).vnode = some as[i] := by
      rw [h.holds.vnode]
      exact List.getElem?_eq_getElem hi
    exact hacc.counts.allocated h.slot hv
  · have hmem : (a, fmWrite) ∈ s.nfs.lookupsOf pid := by
      rw [h.lookups]
      exact List.mem_map_of_mem hlook
    exact (haw.pending a (Nfs.mem_lookups hmem)).1

theorem openings_of_slot (hslot : t.files.sosProcs pid = s.files.sosProcs pid) :
    t.openings pid + (s.nfs.lookupsOf pid).length =
      s.openings pid + (t.nfs.lookupsOf pid).length := by
  unfold openings process?
  rw [hslot]
  omega

theorem Opening.length_eq (h : Opening s pid paths copies p as ls) :
    as.length + ls.length = paths.length := by
  rw [← h.paths, List.length_map, List.length_append]

/-- The files keep their names. -/
theorem Opening.paths_step (h : Opening s pid paths copies p as ls) (hst : Step s e t)
    (hacc : s.Accounted) (haw : s.Awaiting) (hlen : paths.length ≤ 16) :
    (as ++ ls).map (fun a => (t.files.vnodes a).path) = paths := by
  have hsum := h.length_eq
  rw [← h.paths]
  exact List.map_congr_left fun a ha => hst.path_eq (h.allocated hacc haw (by omega) a ha)

/-- An open is done. -/
theorem opening_installed (hfin : p.fin = none)
    (hholds : p.Holds as (List.range as.length ++ [])) (hfree : p.findNextFd = some (fd, i))
    (hlen : as.length < 16) (hslot : t.files.sosProcs pid = .pcb
      ((p.setFile i { vnode := some a, fmode := fmWrite, fp := 0, ref := 1 }).setFd fd i))
    (hlookups : t.nfs.lookupsOf pid = ls.map (·, fmWrite))
    (hpaths : (as ++ [a] ++ ls).map (fun a => (t.files.vnodes a).path) = paths) :
    ∃ q, Opening t pid paths [] q (as ++ [a]) ls := by
  rw [List.append_nil] at hholds
  refine ⟨_, hslot, ?_, ?_, hlookups, hpaths, fun hne => absurd rfl hne⟩
  · rw [Process.setFd_coe]
    exact hfin
  · rw [List.append_nil]
    exact hholds.install hfree hlen a

/-- A step that does not concern the process, and in which none of its opens fails. -/
theorem Opening.other (h : Opening s pid paths copies p as ls) (hst : Step s e t)
    (hser : s.nfs.Serial) (hacc : s.Accounted) (haw : s.Awaiting) (he : ¬ e.Concerns pid)
    (hopen : s.openings pid ≤ t.openings pid) (hlen : paths.length ≤ 16) :
    ∃ q as' ls', Opening t pid paths copies q as' ls' := by
  have hsum := h.length_eq
  have hpaths := h.paths_step hst hacc haw hlen
  cases hst.evolves hser he (by rw [process?_of_slot h.slot]; rfl) with
  | same htables hlookups =>
    obtain ⟨q, hq, hsame⟩ := htables.tables p h.slot
    exact ⟨q, as, ls, hq, hsame.fin.trans h.fin, h.holds.sameTables hsame, hlookups.trans h.lookups,
      hpaths, h.done⟩
  | @granted q fd i a mode rest hq hhead hrest hfree hslot =>
    obtain rfl := Slot.pcb.inj (h.slot.symm.trans hq)
    rw [h.lookups] at hhead
    obtain ⟨a', ls', rfl, hpair, htail⟩ := List.map_eq_cons_iff.mp hhead
    obtain ⟨rfl, rfl⟩ := Prod.mk.inj hpair
    have hnil : copies = [] := by
      by_contra hne
      simpa using h.done hne
    subst hnil
    rw [List.length_cons] at hsum
    obtain ⟨q, hq⟩ := opening_installed h.fin h.holds hfree (by omega) hslot
      (hrest.trans htail.symm) (by simpa using hpaths)
    exact ⟨q, _, _, hq⟩
  | failed hhead hrest hslot =>
    have hcount := openings_of_slot hslot
    rw [hhead, hrest, List.length_cons] at hcount
    omega

theorem openPath_eq_of_fin {path path' : Path} (hfin : p.fin = none)
    (h : openPath p path mode = .ok path') : path' = path := by
  unfold openPath at h
  split at h
  · simp at h
  · split at h
    · simp at h
    · split at h
      · simp at h
      · split at h <;> simpa [hfin] using h.symm

/-- An open of the pager for a process. -/
theorem Opening.opened {block : Nat} (h : Opening s pid paths [] p as ls)
    (hst : Step s (.psOpen pid path fmWrite fmUnlimitedRw fmUnlimitedRw block) t)
    (hacc : s.Accounted) (haw : s.Awaiting)
    (hturn : s.openTarget pid path fmWrite = some none ∨ s.nfs.lookupsOf pid = [])
    (hopen : s.openings pid < t.openings pid) (hlen : paths.length < 16) :
    ∃ q as' ls', Opening t pid (paths ++ [path]) [] q as' ls' := by
  have hsum := h.length_eq
  have hpaths := h.paths_step hst hacc haw hlen.le
  have hnew : ∀ a, (t.files.vnodes a).path = path →
      (as ++ ls ++ [a]).map (fun a => (t.files.vnodes a).path) = paths ++ [path] := by
    intro a ha
    rw [List.map_append, hpaths, List.map_singleton, ha]
  have hsame : t.files.sosProcs pid = s.files.sosProcs pid → t.nfs = s.nfs → False := by
    intro hslot hnfs
    have hcount := openings_of_slot hslot
    rw [hnfs] at hcount
    omega
  have ho : Opened (s.called pid false) pid path fmWrite fmUnlimitedRw fmUnlimitedRw block t :=
    (wp_serve.mpr (vfsOpen_spec pid path fmWrite fmUnlimitedRw fmUnlimitedRw block)).ok hst.2
  cases ho with
  | null hnull => nomatch h.slot.symm.trans hnull
  | refused =>
    refine (hsame ?_ ?_).elim
    · rw [replied_files]
      rfl
    · rw [replied_nfs]
      rfl
  | @shared q path' a _ hq hpath hfind _ hd =>
    obtain rfl := Slot.pcb.inj (h.slot.symm.trans hq)
    obtain rfl := openPath_eq_of_fin h.fin hpath
    have htarget : s.openTarget pid path' fmWrite = some (some a) :=
      (openTarget_eq (s := s) h.slot hpath).trans hfind
    obtain rfl : ls = [] := by
      rcases hturn with hnone | hnil
      · rw [htarget] at hnone
        simp at hnone
      · simpa [h.lookups] using hnil
    have hname : (t.files.vnodes a).path = path' :=
      (hd.samePaths.path a).trans (findVnode_path hfind)
    have hnfs : t.nfs = s.nfs := hd.frame.nfs
    cases hd with
    | gone hnull => nomatch h.slot.symm.trans hnull
    | failed | full =>
      refine (hsame ?_ hnfs).elim
      rw [replied_files]
      exact congrFun (openErr_sosProcs ..) pid
    | done hq _ _ hfree =>
      obtain rfl := Slot.pcb.inj (h.slot.symm.trans hq)
      have hall := hnew a hname
      rw [List.length_nil] at hsum
      rw [List.append_nil, ← List.append_nil (as ++ [a])] at hall
      obtain ⟨q, hq⟩ := opening_installed h.fin h.holds hfree (by omega)
        (by rw [replied_files]; exact Function.update_self ..) (hnfs ▸ h.lookups) hall
      exact ⟨q, _, _, hq⟩
  | @made q path' f hq hpath hfind _ hf =>
    obtain rfl := Slot.pcb.inj (h.slot.symm.trans hq)
    obtain rfl := openPath_eq_of_fin h.fin hpath
    refine ⟨p, as, ls ++ [block], ?_, h.fin, h.holds, ?_, ?_, fun hne => absurd rfl hne⟩
    · rw [hf]
      exact (congrFun (addVnode_sosProcs ..) pid).trans h.slot
    · change (s.nfs.request f pid (.lookup block fmWrite) _).lookupsOf pid = _
      simp [h.lookups, RequestType.opening?]
    · rw [← List.append_assoc]
      refine hnew block ?_
      rw [hf]
      exact made_path ..
  | lockedOut _ _ _ hlocked => exact absurd hlocked (by decide)

/-- The `dup` of the pager, with the first file open. -/
theorem Opening.dupped (h : Opening s pid [path] [] p as ls)
    (hst : Step s (.psDup pid 0 1) t) (hacc : s.Accounted) (haw : s.Awaiting)
    (hopen : ¬ s.NotOpen pid 0) : ∃ q as' ls', Opening t pid [path] [0] q as' ls' := by
  have hsum := h.length_eq
  have hpaths := h.paths_step hst hacc haw (by simp)
  obtain ⟨p', i, hp', hi⟩ := exists_openFd hopen
  obtain rfl := Slot.pcb.inj (h.slot.symm.trans hp')
  obtain ⟨a, rfl, rfl⟩ : ∃ a, as = [a] ∧ ls = [] := by
    cases as with
    | nil =>
      have hnone := h.holds.vfile?_eq_none (g := 0) rfl
      nomatch hi.symm.trans hnone
    | cons a as =>
      simp only [List.length_cons, List.length_nil] at hsum
      exact ⟨a, by rw [List.length_eq_zero_iff.mp (by omega : as.length = 0)],
        List.length_eq_zero_iff.mp (by omega)⟩
  have hholds : p.Holds [a] [0] := h.holds
  have hzero : p.vfile? 0 = some 0 := hholds.vfile?_eq_some (g := 0) rfl (by simp)
  have hone : p.vfile? (1 : Fin 19) = none := hholds.vfile?_eq_none rfl
  have hd : Dupped (s.called pid false) pid 0 1 t := (wp_serve.mpr (vfsDup_spec pid 0 1)).ok hst.2
  cases hd with
  | refused _ hwhy =>
    rcases hwhy with hnot | hrange
    · exact absurd hnot hopen
    · exact absurd ⟨by decide, by decide⟩ hrange
  | @copied p' i g ho _ hwhere =>
    obtain rfl := Slot.pcb.inj (h.slot.symm.trans ho.1)
    obtain rfl := Option.some.inj (hzero.symm.trans ho.2)
    obtain rfl : g = 1 := by
      rcases hwhere with hg | ⟨hnil, -⟩
      · exact Fin.ext (by have : ((g : Nat) : Int) = 1 := hg.symm; simp; omega)
      · exact absurd hnil (by decide)
    have hslot := dupTo_slot h.slot 0 (1 : Fin 19) 0
    rw [replied_files] at hpaths
    have hdup := hholds.dup (((p.files 0).ref + 1) % wordLimit)
    refine ⟨_, [a], [], ?_, ?_, hdup, ?_, ?_, fun _ => rfl⟩
    · rw [replied_files]
      exact hslot
    · rw [Process.setFd_coe]
      exact h.fin
    · rw [replied_nfs]
      exact h.lookups
    · rw [replied_files]
      exact hpaths
  | @replaced p' i j u g hg _ ho _ =>
    obtain rfl := Slot.pcb.inj (h.slot.symm.trans ho.1)
    obtain rfl : g = 1 := Fin.ext (by have : ((g : Nat) : Int) = 1 := hg.symm; simp; omega)
    nomatch hone.symm.trans ho.2

/-! ## The standard input -/

/-- A process keeps its standard input. -/
structure KeepsFin (f g : Files) (pid : Pid) : Prop where
  fin : ∀ p, f.sosProcs pid = .pcb p → ∃ q, g.sosProcs pid = .pcb q ∧ q.fin = p.fin

section KeepsFin

variable {f g h : Files} {q : Process}

theorem KeepsFin.trans (hfg : KeepsFin f g pid) (hgh : KeepsFin g h pid) : KeepsFin f h pid where
  fin := fun p hp => by
    obtain ⟨q, hq, hfin⟩ := hfg.fin p hp
    obtain ⟨r, hr, hfin'⟩ := hgh.fin q hq
    exact ⟨r, hr, hfin'.trans hfin⟩

theorem KeepsFin.of_slot (hs : g.sosProcs pid = f.sosProcs pid) : KeepsFin f g pid :=
  ⟨fun p hp => ⟨p, hs.trans hp, rfl⟩⟩

theorem KeepsFin.of_update (hp : f.sosProcs pid' = .pcb p)
    (hg : g.sosProcs = Function.update f.sosProcs pid' (.pcb q)) (hq : q.fin = p.fin) :
    KeepsFin f g pid := by
  by_cases hpid : pid = pid'
  · subst hpid
    refine ⟨fun r hr => ⟨q, by rw [hg, Function.update_self], ?_⟩⟩
    obtain rfl := Slot.pcb.inj (hp.symm.trans hr)
    exact hq
  · exact .of_slot (by rw [hg, Function.update_of_ne hpid])

theorem keepsFin_upd (f : Files) {u : Process → Process} (hu : ∀ p, (u p).fin = p.fin) :
    KeepsFin f (f.upd pid' u) pid := by
  cases hp : f.sosProcs pid' with
  | pcb p => exact .of_update hp (by rw [upd_pcb hp]; rfl) (hu p)
  | _ => exact .of_slot (by simp [Files.upd, hp])

theorem setFd_fin (p : Process) (fd e : Int) : (p.setFd fd e).fin = p.fin := by
  unfold Process.setFd
  split <;> rfl

theorem keepsFin_dupTo (f : Files) (forig fdup : Int) (i : Fin 16) :
    KeepsFin f (f.dupTo pid' forig fdup i) pid :=
  (keepsFin_upd f fun _ => setFd_fin ..).trans (keepsFin_upd _ fun _ => rfl)

end KeepsFin

theorem OpenDone.keepsFin (ho : OpenDone s pid' a mode status t) :
    KeepsFin s.files t.files pid := by
  cases ho with
  | gone => exact .of_slot (congrFun (openErr_sosProcs ..) pid)
  | failed | full =>
    rw [replied_files]
    exact .of_slot (congrFun (openErr_sosProcs ..) pid)
  | done hp =>
    rw [replied_files]
    exact .of_update hp rfl (setFd_fin ..)

theorem Opened.keepsFin
    (ho : Opened s pid' path mode readers writers block t) : KeepsFin s.files t.files pid := by
  cases ho with
  | null => exact .of_slot rfl
  | refused =>
    rw [replied_files]
    exact .of_slot rfl
  | shared _ _ _ _ hd => exact hd.keepsFin
  | made _ _ _ _ hf | lockedOut _ _ _ _ hf =>
    rw [hf]
    exact .of_slot (congrFun (addVnode_sosProcs ..) pid)

theorem Closed.keepsFin {fd : Int} (hc : Closed s pid' fd t) : KeepsFin s.files t.files pid := by
  have hunname : ∀ p i a, s.files.sosProcs pid' = .pcb p →
      KeepsFin s.files (s.files.unname pid' p fd i a) pid := fun p i a hp =>
    .of_update hp (unname_sosProcs ..) (setFd_fin ..)
  cases hc with
  | notOpen => exact .of_slot rfl
  | kept ho _ hf _ =>
    rw [replied_files, hf]
    exact hunname _ _ _ ho.1
  | @last p i a f ho _ hf _ _ _ =>
    rw [replied_files]
    have hdrop : KeepsFin f ((f.freeNfsfile a).drop a) pid :=
      .of_slot (congrFun (drop_sosProcs ..) pid)
    exact (hf ▸ hunname _ _ _ ho.1).trans hdrop
  | console ho _ hf _ _ =>
    rw [replied_files, hf]
    exact hunname _ _ _ ho.1

theorem Dupped.keepsFin (hd : Dupped s pid' forig fdup t) :
    KeepsFin s.files t.files pid := by
  cases hd with
  | refused =>
    rw [replied_files]
    exact .of_slot rfl
  | copied =>
    rw [replied_files]
    exact keepsFin_dupTo ..
  | @replaced p i j u g _ _ _ hu =>
    rw [replied_files]
    have haccept : ∀ (f : Files) x, KeepsFin f (f.upd pid' ({ · with ipcAccept := x })) pid :=
      fun f x => keepsFin_upd f fun _ => rfl
    exact ((haccept s.files .none).trans hu.keepsFin).trans
      ((haccept u.files p.ipcAccept).trans (keepsFin_dupTo ..))

theorem Answers.keepsFin (ha : Answers s pid' t) : KeepsFin s.files t.files pid := by
  obtain ⟨f, n, words, hf, rfl⟩ := ha
  rw [replied_files]
  refine ⟨fun p hp => ?_⟩
  obtain ⟨q, hq, hsame⟩ := (hf.keepsTables pid).tables p hp
  exact ⟨q, hq, hsame.fin⟩

theorem Completed.keepsFin {token : Nat} (hc : Completed s token ans t) :
    KeepsFin s.files t.files pid := by
  cases hc with
  | unknown => exact .of_slot rfl
  | lookedUp _ _ _ _ ho =>
    exact ⟨(OpenDone.keepsFin ho).fin⟩
  | missing => exact .of_slot rfl
  | failed _ _ _ ho =>
    exact ⟨(OpenDone.keepsFin ho).fin⟩
  | answered _ _ ha =>
    exact ⟨(Answers.keepsFin ha).fin⟩
  | more => exact .of_slot rfl

theorem Step.keepsFin (hst : Step s e t) (hproc : (s.process? pid).isSome)
    (he : e ≠ .removePcb pid) : KeepsFin s.files t.files pid := by
  have hfree : ∀ pid', s.process? pid' = none → pid ≠ pid' := by
    rintro pid' hnone rfl
    rw [hnone] at hproc
    simp at hproc
  cases hst.handled with
  | opened _ _ _ _ _ _ _ _ ho => exact ho.keepsFin
  | closed _ _ _ _ hc => exact hc.keepsFin
  | dupped _ _ _ _ _ hd => exact hd.keepsFin
  | called _ _ _ _ hc =>
    cases hc with
    | silent => exact .of_slot rfl
    | answered ha => exact ha.keepsFin
    | requested | reader => exact .of_slot rfl
  | completed _ _ _ _ _ hc => exact hc.keepsFin
  | typed _ _ ht =>
    cases ht with
    | idle | kept => exact .of_slot rfl
    | line _ ha => exact ha.keepsFin
  | reserved pid' heq => exact .of_slot (Function.update_of_ne (hfree pid' (heq ▸ hst.1).2) ..)
  | spawned pid' _ heq => exact .of_slot (Function.update_of_ne (hfree pid' (heq ▸ hst.1).2) ..)
  | turned => exact keepsFin_upd _ fun _ => rfl
  | retired pid' p heq hp =>
    refine .of_slot (Function.update_of_ne ?_ ..)
    rintro rfl
    exact he heq

/-- What the process opens, and looks up to open, in a step has the name. -/
structure OpensOnly (s t : Vfs) (pid : Pid) (path : Path) : Prop where
  files : ∀ p q i a, s.process? pid = some p → t.process? pid = some q →
    (q.files i).vnode = some a → (p.files i).vnode = some a ∨ (t.files.vnodes a).path = path
  lookups : ∀ x ∈ t.nfs.lookupsOf pid,
    x ∈ s.nfs.lookupsOf pid ∨ (t.files.vnodes x.1).path = path

theorem openPath_stdin {path' : Path} (h : openPath p stdoutFn mode = .ok path') :
    path' = p.fin.getD stdoutFn := by
  unfold openPath at h
  split at h
  · simp at h
  · split at h
    · simp at h
    · split at h
      · simp at h
      · exact (Except.ok.inj h).symm

theorem OpensOnly.of_slot (hslot : t.files.sosProcs pid = s.files.sosProcs pid)
    (hlookups : ∀ x ∈ t.nfs.lookupsOf pid, x ∈ s.nfs.lookupsOf pid ∨
      (t.files.vnodes x.1).path = path) :
    OpensOnly s t pid path where
  files := fun p q i a hp hq ha => by
    unfold process? at hp hq
    rw [hslot, hp] at hq
    obtain rfl := Option.some.inj hq
    exact .inl ha
  lookups := hlookups

theorem OpensOnly.of_same (hslot : t.files.sosProcs pid = s.files.sosProcs pid)
    (hnfs : t.nfs.lookupsOf pid = s.nfs.lookupsOf pid) : OpensOnly s t pid path :=
  .of_slot hslot fun _ hx => .inl (hnfs ▸ hx)

/-- The vnode that an open makes and looks up. -/
theorem OpensOnly.of_lookup (hslot : t.files.sosProcs pid = s.files.sosProcs pid)
    (hnfs : t.nfs.lookupsOf pid = s.nfs.lookupsOf pid ++ [(a, mode)])
    (hname : (t.files.vnodes a).path = path) : OpensOnly s t pid path := by
  refine .of_slot hslot fun x hx => ?_
  rw [hnfs, List.mem_append, List.mem_singleton] at hx
  rcases hx with hold | rfl
  · exact .inl hold
  · exact .inr hname

/-- An open of the console goes to the file that stands for the standard input. -/
theorem Opened.opensOnly
    (ho : Opened s pid stdoutFn mode readers writers block t) (hp : s.files.sosProcs pid = .pcb p) :
    OpensOnly s t pid (p.fin.getD stdoutFn) := by
  cases ho with
  | null => exact .of_same rfl rfl
  | refused => exact .of_same (by rw [replied_files]) (by rw [replied_nfs])
  | @shared q path' a _ hq hpath hfind _ hd =>
    obtain rfl := Slot.pcb.inj (hp.symm.trans hq)
    obtain rfl := openPath_stdin hpath
    have hname := (hd.samePaths.path a).trans (findVnode_path hfind)
    have hnfs := congrArg (Nfs.lookupsOf · pid) hd.frame.nfs
    cases hd with
    | gone => exact .of_same (congrFun (openErr_sosProcs ..) pid) hnfs
    | failed | full =>
      refine .of_same ?_ hnfs
      rw [replied_files]
      exact congrFun (openErr_sosProcs ..) pid
    | @done q v fd i hq' _ _ _ =>
      obtain rfl := Slot.pcb.inj (hp.symm.trans hq')
      refine ⟨fun p₁ q j b hp₁ hq hb => ?_, fun x hx => .inl (hnfs ▸ hx)⟩
      obtain rfl := Slot.pcb.inj (hp.symm.trans (slot_of_process? hp₁))
      have hslot := slot_of_process? hq
      rw [replied_files] at hslot
      obtain rfl := Slot.pcb.inj ((Function.update_self ..).symm.trans hslot)
      by_cases hj : j = i
      · subst hj
        rw [setFd_files] at hb
        obtain rfl : a = b := by simpa [Process.setFile] using hb
        exact .inr hname
      · rw [setFd_files] at hb
        exact .inl (by simpa [Process.setFile, hj] using hb)
  | @made q path' f hq hpath _ _ hf =>
    obtain rfl := Slot.pcb.inj (hp.symm.trans hq)
    obtain rfl := openPath_stdin hpath
    refine .of_lookup ?_ (?_ : _ = s.nfs.lookupsOf pid ++ [(block, mode)]) ?_
    · rw [hf]
      exact congrFun (addVnode_sosProcs ..) pid
    · change (s.nfs.request f pid (.lookup block mode) s.caller).lookupsOf pid = _
      simp [RequestType.opening?]
    · rw [hf]
      exact made_path ..
  | @lockedOut q path' f hq hpath _ _ hf =>
    obtain rfl := Slot.pcb.inj (hp.symm.trans hq)
    obtain rfl := openPath_stdin hpath
    refine .of_lookup ?_ (?_ : _ = s.nfs.lookupsOf pid ++ [(block, mode)]) ?_
    · rw [hf]
      exact congrFun (addVnode_sosProcs ..) pid
    · change ((s.replied pid [vfsError]).nfs.request f pid (.lookup block mode) _).lookupsOf pid = _
      simp [RequestType.opening?]
    · change ((f.addVnode block).vnodes block).path = _
      rw [(f.relinked_addVnode block).samePaths.path block, hf]
      simp [Files.made, Files.opening]

/-! ## The messages of `process_prepare2` -/

/-- A message for the descriptors of a new process, as the root server receives it. -/
def callEvent (block : Nat) : VfsCall → Option Event
  | .psOpen pid path mode => some (.psOpen pid path mode fmUnlimitedRw fmUnlimitedRw block)
  | .psDup pid => some (.psDup pid 0 1)
  | _ => none

/-- The path of a message that opens a file. -/
def callPath : VfsCall → Option Path
  | .psOpen _ path _ => some path
  | _ => none

/-- The descriptor that a message doubles. -/
def callCopy : VfsCall → Option Nat
  | .psDup _ => some 0
  | _ => none

/-- The messages, if both standard files are redirected or none. -/
def stdCalls (pid : Pid) (fdout fderr : Option Path) : List VfsCall :=
  [.psOpen pid (fdout.getD stdoutFn) fmWrite,
    if fdout = fderr then .psDup pid else .psOpen pid (fderr.getD stdoutFn) fmWrite]

theorem openStdFds_calls (h : fdout.isSome = fderr.isSome) (pid : Pid)
    (k : Kernel) : ∃ k', openStdFds pid fdout fderr k = .ok () k' ∧
      k'.calls = k.calls ++ stdCalls pid fdout fderr := by
  cases fdout with
  | none =>
    cases fderr with
    | none => exact ⟨_, rfl, by simp [stdCalls]⟩
    | some err => simp at h
  | some out =>
    cases fderr with
    | none => simp at h
    | some err =>
      by_cases heq : out = err
      · subst heq
        exact ⟨_, by simp only [openStdFds, if_pos]; rfl, by simp [stdCalls]⟩
      · exact ⟨_, by simp only [openStdFds, if_neg heq]; rfl, by simp [stdCalls, heq]⟩

/-- The pager has entered a new PCB: no file is open, and no open of an earlier process with the pid
waits for NFS. -/
def Fresh (s : Vfs) (pid : Pid) : Prop :=
  ∃ p, s.files.sosProcs pid = .pcb p ∧ p.VfilesInit ∧ p.fin = none ∧ s.nfs.lookupsOf pid = []

/-- The messages `calls` for a new process have been handled, with steps for others in between. None
of the opens has failed. -/
inductive Serving (C : Vfs → Event → Prop) (pid : Pid) : List VfsCall → Vfs → Prop
  | start {s : Vfs} : Reachable C s → Fresh s pid → Serving C pid [] s
  | message {calls : List VfsCall} {c : VfsCall} {block : Nat} {s : Vfs} {e : Event} {t : Vfs} :
      Serving C pid calls s → callEvent block c = some e → C s e → Step s e t →
      s.openings pid + (callPath c).toList.length ≤ t.openings pid →
      Serving C pid (calls ++ [c]) t
  | other {calls : List VfsCall} {s : Vfs} {e : Event} {t : Vfs} : Serving C pid calls s →
      ¬ e.Concerns pid → C s e → Step s e t → s.openings pid ≤ t.openings pid →
      Serving C pid calls t

/-- An open is to be done at once while an earlier one of the process waits for NFS, or a descriptor
is to be doubled that is not open yet. -/
def Overtakes (s : Vfs) : Event → Prop
  | .psOpen pid path mode _ _ _ =>
    s.openTarget pid path (mode % 256) ≠ some none ∧ s.nfs.lookupsOf pid ≠ []
  | .psDup pid forig _ => s.NotOpen pid forig
  | _ => False

instance (s : Vfs) (e : Event) : Decidable (Overtakes s e) := by
  unfold Overtakes
  rcases e <;> infer_instance

/-- What a step needs. -/
def InOrder (s : Vfs) (e : Event) : Prop :=
  ¬ MakesLockedOut s e ∧ ¬ SharesLookup s e ∧ s.files.NoWrap ∧ ¬ Overtakes s e

theorem Serving.reachable {C : Vfs → Event → Prop} {calls : List VfsCall}
    (h : Serving C pid calls s) : Reachable C s := by
  induction h with
  | start hr => exact hr
  | message _ _ hc hst _ ih | other _ _ hc hst _ ih => exact ih.step hc hst

theorem append_singleton_prefix_pair {α : Type} {l : List α} {x y z : α}
    (h : l ++ [x] <+: [y, z]) : l = [] ∧ x = y ∨ l = [y] ∧ x = z := by
  obtain ⟨r, hr⟩ := h
  match l with
  | [] => exact .inl ⟨rfl, by simpa using (List.cons.inj hr).1⟩
  | [w] =>
    simp only [List.cons_append, List.nil_append, List.cons.injEq] at hr
    exact .inr ⟨by rw [hr.1], hr.2.1⟩
  | _ :: _ :: _ => simp at hr

/-- How far the opens have come when a part of the messages has been handled. -/
theorem Serving.opening {calls : List VfsCall}
    (h : Serving InOrder pid calls s) (hcalls : calls <+: stdCalls pid fdout fderr) :
    ∃ p as ls, Opening s pid (calls.filterMap callPath) (calls.filterMap callCopy) p as ls := by
  induction h with
  | start _ hfresh =>
    obtain ⟨p, hp, hinit, hfin, hnone⟩ := hfresh
    exact ⟨p, [], [], hp, hfin, Process.holds_nil hinit, hnone, rfl, fun _ => rfl⟩
  | @message calls c block s e t hserving he hc hst hopen ih =>
    obtain ⟨p, as, ls, h⟩ := ih ((List.prefix_append ..).trans hcalls)
    obtain ⟨-, hacc, -, haw⟩ := hserving.reachable.awaiting fun s e hc => ⟨hc.1, hc.2.1, hc.2.2.1⟩
    have hle := List.length_filterMap_le callPath calls
    rw [List.filterMap_append, List.filterMap_append]
    have hopened : ∀ path, c = .psOpen pid path fmWrite → calls.filterMap callCopy = [] →
        calls.length < 16 → ∃ q as' ls', Opening t pid (calls.filterMap callPath ++ [path])
          (calls.filterMap callCopy ++ []) q as' ls' := by
      rintro path rfl hnone hlen
      obtain rfl := Option.some.inj he
      rw [hnone] at h ⊢
      refine h.opened hst hacc haw ?_ hopen (by omega)
      by_contra hnot
      exact hc.2.2.2 (not_or.mp hnot)
    rcases append_singleton_prefix_pair hcalls with ⟨rfl, hfirst⟩ | ⟨rfl, hsecond⟩
    · subst hfirst
      exact hopened _ rfl rfl (by simp)
    · by_cases hsame : fdout = fderr
      · rw [if_pos hsame] at hsecond
        subst hsecond
        obtain rfl := Option.some.inj he
        exact h.dupped hst hacc haw hc.2.2.2
      · rw [if_neg hsame] at hsecond
        subst hsecond
        exact hopened _ rfl rfl (by simp)
  | @other calls s e t hserving he hc hst hopen ih =>
    obtain ⟨p, as, ls, h⟩ := ih hcalls
    obtain ⟨-, hacc, hser, haw⟩ := hserving.reachable.awaiting fun s e hc =>
      ⟨hc.1, hc.2.1, hc.2.2.1⟩
    refine h.other hst hser hacc haw he hopen ?_
    have hlen := hcalls.length_le
    have hle := List.length_filterMap_le callPath calls
    simp only [stdCalls, List.length_cons, List.length_nil] at hlen
    omega

/-- `process_set_stdin`, if the standard input is redirected. -/
def setStdin (s : Vfs) (pid : Pid) (fdin : Option Path) : Vfs :=
  match fdin with
  | none => s
  | some file => s.withFiles (s.files.upd pid ({ · with fin := some file }))

/-- Steps after which the process is still there. -/
def Outlives (pid : Pid) : Vfs → Vfs → Prop :=
  Relation.ReflTransGen fun s t => ∃ e, e ≠ .removePcb pid ∧ Step s e t

theorem Outlives.fin (h : Outlives pid s t) (hp : s.files.sosProcs pid = .pcb p) :
    ∃ q, t.files.sosProcs pid = .pcb q ∧ q.fin = p.fin := by
  induction h with
  | refl => exact ⟨p, hp, rfl⟩
  | tail _ hst ih =>
    obtain ⟨q, hq, hfin⟩ := ih
    obtain ⟨e, he, hst⟩ := hst
    obtain ⟨r, hr, hfin'⟩ := (hst.keepsFin (by rw [process?_of_slot hq]; rfl) he).fin q hq
    exact ⟨r, hr, hfin'.trans hfin⟩

/-- The descriptors 0 and 1 of the process are open for writing, on files with the two names, and
are one open file just if the names are the same. -/
def StdFiles (s : Vfs) (pid : Pid) (out err : Path) : Prop :=
  ∃ p i j a b, s.process? pid = some p ∧
    p.vfile? 0 = some i ∧ (p.files i).vnode = some a ∧ (s.files.vnodes a).path = out ∧
    p.vfile? 1 = some j ∧ (p.files j).vnode = some b ∧ (s.files.vnodes b).path = err ∧
    (p.files i).fmode = fmWrite ∧ (p.files j).fmode = fmWrite ∧ (i = j ↔ out = err)

theorem Opening.stdFiles_of_dup (h : Opening s pid [path] [0] p as ls) :
    StdFiles s pid path path := by
  obtain rfl := h.done (by simp)
  have hlen := h.length_eq
  obtain ⟨a, rfl⟩ := List.length_eq_one_iff.mp (by simpa using hlen)
  have hholds : p.Holds [a] [0, 0] := h.holds
  have hname : (s.files.vnodes a).path = path := by simpa using h.paths
  have hzero : p.vfile? 0 = some 0 := hholds.vfile?_eq_some (g := 0) rfl (by simp)
  have hone : p.vfile? 1 = some 0 := hholds.vfile?_eq_some (g := 1) rfl (by simp)
  exact ⟨p, 0, 0, a, a, process?_of_slot h.slot, hzero, hholds.vnode 0, hname, hone, hholds.vnode 0,
    hname, hholds.fmode 0 (by simp), hholds.fmode 0 (by simp), by simp⟩

theorem Opening.stdFiles_of_ne {out err : Path} (h : Opening s pid [out, err] [] p as [])
    (hne : out ≠ err) : StdFiles s pid out err := by
  have hlen := h.length_eq
  obtain ⟨a, b, rfl⟩ := List.length_eq_two.mp (by simpa using hlen)
  have hholds : p.Holds [a, b] [0, 1] := h.holds
  obtain ⟨hout, herr⟩ : (s.files.vnodes a).path = out ∧ (s.files.vnodes b).path = err := by
    simpa using h.paths
  have hzero : p.vfile? 0 = some 0 := hholds.vfile?_eq_some (g := 0) rfl (by simp)
  have hone : p.vfile? 1 = some 1 := hholds.vfile?_eq_some (g := 1) rfl (by simp)
  exact ⟨p, 0, 1, a, b, process?_of_slot h.slot, hzero, hholds.vnode 0, hout, hone, hholds.vnode 1,
    herr, hholds.fmode 0 (by simp), hholds.fmode 1 (by simp), by simp [hne]⟩

/-- A step of a run for process 1 that shows it to be in order. `n` opens begin. -/
def Proceeds (s : Vfs) (e : Event) (n : Nat) (t : Vfs) : Prop :=
  (¬ MakesLockedOut s e ∧ ¬ SharesLookup s e ∧ s.files.lost = [] ∧ ¬ Overtakes s e) ∧
    s.openings 1 + n ≤ t.openings 1

instance (s : Vfs) (e : Event) (n : Nat) (t : Vfs) : Decidable (Proceeds s e n t) :=
  inferInstanceAs (Decidable (_ ∧ _))

theorem Proceeds.inOrder {n : Nat} (h : Proceeds s e n t) : InOrder s e :=
  ⟨h.1.1, h.1.2.1, noWrap_of_lost_nil h.1.2.2.1, h.1.2.2.2⟩

theorem fresh_booted : Fresh (booted 1) 1 :=
  ⟨_, rfl, ⟨fun _ => rfl, fun _ => rfl⟩, rfl, rfl⟩

end Vfs

end Sos
