import Sos.Vfs.Listing
import Sos.Vfs.Steps

/-!
# What the vnodes are

`Files.Kinds c f`: the vnode of the console, at `c`, is there with its file; all other allocated
vnodes belong to NFS; the allocated vnodes are the listed ones. It is kept by every step, unless an
open makes a vnode that its own locks keep it from opening (`MakesLockedOut`): that vnode is linked
after it has been freed.
-/

namespace Sos

/-! ## Reference counts -/

namespace VNode

variable {v w : VNode} {mode : Nat}

/-- The counts of a vnode that has been opened. -/
theorem increaseRefs_ok (h : v.increaseRefs mode = .ok w) :
    w = { v with
      readers := if reads mode then (v.readers + 1) % wordLimit else v.readers
      writers := if writes mode then (v.writers + 1) % wordLimit else v.writers } ∧
    (reads mode = true → v.readers < v.maxReaders ∨ v.maxReaders = fmUnlimitedRw) ∧
    (writes mode = true → v.writers < v.maxWriters ∨ v.maxWriters = fmUnlimitedRw) := by
  unfold increaseRefs at h
  split at h
  · simp at h
  · next hr =>
    split at h
    · simp at h
    · next hw =>
      refine ⟨(Except.ok.inj h).symm, fun hm => ?_, fun hm => ?_⟩
      · by_contra hn
        push Not at hn
        exact hr ⟨hm, hn⟩
      · by_contra hn
        push Not at hn
        exact hw ⟨hm, hn⟩

/-- The counts are unsigned words. -/
def Small (v : VNode) : Prop := v.readers < wordLimit ∧ v.writers < wordLimit

theorem Small.increaseRefs (h : v.Small) (hv : v.increaseRefs mode = .ok w) : w.Small := by
  obtain ⟨rfl, -⟩ := increaseRefs_ok hv
  have hpos : 0 < wordLimit := by decide
  constructor
  · dsimp only
    split
    · exact Nat.mod_lt _ hpos
    · exact h.1
  · dsimp only
    split
    · exact Nat.mod_lt _ hpos
    · exact h.2

theorem Small.decreaseRefs (h : v.Small) (mode : Nat) : (v.decreaseRefs mode).Small := by
  have hpos : 0 < wordLimit := by decide
  constructor
  · unfold VNode.decreaseRefs
    dsimp only
    split
    · exact Nat.mod_lt _ hpos
    · exact h.1
  · unfold VNode.decreaseRefs
    dsimp only
    split
    · exact Nat.mod_lt _ hpos
    · exact h.2

theorem add_sub_mod {n m : Nat} (h : n < m) : ((n + 1) % m + (m - 1)) % m = n := by
  rw [Nat.mod_add_mod, show n + 1 + (m - 1) = n + m by omega, Nat.add_mod_right, Nat.mod_eq_of_lt h]

/-- The roll-back of `vfs_open_done`. -/
theorem Small.decreaseRefs_increaseRefs (h : v.Small) (hv : v.increaseRefs mode = .ok w) :
    w.decreaseRefs mode = v := by
  obtain ⟨rfl, -⟩ := increaseRefs_ok hv
  unfold VNode.decreaseRefs
  cases hr : reads mode <;> cases hw : writes mode <;>
    simp [add_sub_mod h.1, add_sub_mod h.2]

end VNode

namespace Files

variable {f g : Files} {a b c : Nat}

/-- The vnode of the console. -/
structure IsConsole (f : Files) (c : Nat) : Prop where
  allocated : f.allocated c = true
  extra : (f.vnodes c).extra = .consoleFile
  fs : (f.vnodes c).fs = .console
  maxReaders : (f.vnodes c).maxReaders = 1
  maxWriters : (f.vnodes c).maxWriters = fmUnlimitedRw

/-- The vnodes: those that are allocated are listed, the console is one of them, and the others
belong to NFS. A vnode that is not allocated has no `NFS_File`. -/
structure Kinds (c : Nat) (f : Files) : Prop where
  listed : f.Listed
  console : f.IsConsole c
  nfs : ∀ a, f.allocated a = true → a ≠ c →
    (f.vnodes a).fs = .nfs ∧ (f.vnodes a).extra ≠ .consoleFile
  blank : ∀ a, f.allocated a = false → (f.vnodes a).extra = .null
  small : ∀ a, (f.vnodes a).Small

/-- A vnode keeps its links, its limits and its file system. -/
structure KeepsVnode (v w : VNode) : Prop where
  next : w.next = v.next
  previous : w.previous = v.previous
  fs : w.fs = v.fs
  maxReaders : w.maxReaders = v.maxReaders
  maxWriters : w.maxWriters = v.maxWriters

section Kinds

variable (h : f.Kinds c)
include h

/-- The vnodes stay in place, and `extra` of the console does not change. -/
theorem Kinds.congr (hhead : g.globalVNodes = f.globalVNodes)
    (halloc : g.allocated = f.allocated) (hm : g.mallocs = f.mallocs)
    (hkeep : ∀ a, KeepsVnode (f.vnodes a) (g.vnodes a)) (hsmall : ∀ a, (g.vnodes a).Small)
    (hextra : ∀ a, (g.vnodes a).extra = (f.vnodes a).extra ∨
      a ≠ c ∧ (g.vnodes a).extra ≠ .consoleFile ∧
        (f.allocated a = false → (g.vnodes a).extra = .null)) : g.Kinds c where
  listed := h.listed.congr hhead (fun a => (hkeep a).next) (fun a => (hkeep a).previous) halloc hm
  console := by
    refine ⟨by rw [halloc]; exact h.console.allocated, ?_, (hkeep c).fs.trans h.console.fs,
      (hkeep c).maxReaders.trans h.console.maxReaders,
      (hkeep c).maxWriters.trans h.console.maxWriters⟩
    rcases hextra c with he | ⟨hne, -⟩
    · exact he.trans h.console.extra
    · exact absurd rfl hne
  nfs := fun a ha hac => by
    rw [halloc] at ha
    obtain ⟨hfs, he⟩ := h.nfs a ha hac
    refine ⟨(hkeep a).fs.trans hfs, ?_⟩
    rcases hextra a with hsame | ⟨-, hne, -⟩
    · rwa [hsame]
    · exact hne
  blank := fun a ha => by
    rw [halloc] at ha
    rcases hextra a with hsame | ⟨-, -, hnull⟩
    · exact hsame.trans (h.blank a ha)
    · exact hnull ha
  small := hsmall

/-- Only the process table and the ghosts have changed. -/
theorem Kinds.of_vnodes (hv : g.vnodes = f.vnodes)
    (hhead : g.globalVNodes = f.globalVNodes) (halloc : g.allocated = f.allocated)
    (hm : g.mallocs = f.mallocs) : g.Kinds c :=
  h.congr hhead halloc hm (fun a => by rw [hv]; exact ⟨rfl, rfl, rfl, rfl, rfl⟩)
    (fun a => by rw [hv]; exact h.small a) fun a => .inl (by rw [hv])

/-- One vnode is written. -/
theorem Kinds.setVnode {v : VNode} (hkeep : KeepsVnode (f.vnodes a) v)
    (hsmall : v.Small) (hextra : v.extra = (f.vnodes a).extra ∨
      a ≠ c ∧ v.extra ≠ .consoleFile ∧ (f.allocated a = false → v.extra = .null)) :
    (f.setVnode a v).Kinds c := by
  refine h.congr rfl rfl rfl (fun b => ?_) (fun b => ?_) (fun b => ?_) <;>
  · by_cases hb : b = a
    · subst hb
      rw [setVnode_vnodes_self]
      assumption
    · rw [setVnode_vnodes_of_ne _ _ hb]
      first | exact ⟨rfl, rfl, rfl, rfl, rfl⟩ | exact h.small b | exact .inl rfl

theorem Kinds.quiet (hq : f.Quiet g) : g.Kinds c := by
  have hrest := hq.rest
  refine h.congr (by rw [hrest]) (by rw [hrest]) (by rw [hrest]) (fun a => ?_) (fun a => ?_)
    (fun a => .inl ?_)
  · obtain ⟨x, y, z, hv⟩ := hq.vnode a
    rw [hv]
    exact ⟨rfl, rfl, rfl, rfl, rfl⟩
  · obtain ⟨x, y, z, hv⟩ := hq.vnode a
    rw [hv]
    exact h.small a
  · obtain ⟨x, y, z, hv⟩ := hq.vnode a
    rw [hv]

theorem Kinds.freeNfsfile (ha : a ≠ c) : (f.freeNfsfile a).Kinds c :=
  h.setVnode ⟨rfl, rfl, rfl, rfl, rfl⟩ (h.small a) (.inr ⟨ha, nofun, fun _ => rfl⟩)

theorem Kinds.filled (ha : a ≠ c) (he : (f.vnodes a).extra ≠ .null)
    (ans : RpcAnswer) : (f.filled a ans).Kinds c := by
  refine Kinds.quiet ?_ (.cpStats _ a ans.attr)
  refine h.setVnode ⟨rfl, rfl, rfl, rfl, rfl⟩ (h.small a) (.inr ⟨ha, nofun, fun hn => ?_⟩)
  exact absurd (h.blank a hn) he

theorem Kinds.drop (ha : f.Freeable a) : (f.drop a).Kinds c := by
  have hac : a ≠ c := fun hac => ha.1 (hac ▸ h.console.extra)
  have hrel := f.relinked_removeVnode a
  have halloc : (f.drop a).allocated = Function.update f.allocated a false := by
    change Function.update (f.removeVnode a).allocated a false = _
    rw [hrel.allocated]
  have hother : ∀ b, b ≠ a → (f.drop a).vnodes b = (f.removeVnode a).vnodes b :=
    fun b hb => setVnode_vnodes_of_ne _ _ hb
  have hself : (f.drop a).vnodes a = { (f.removeVnode a).vnodes a with extra := .null } :=
    setVnode_vnodes_self ..
  obtain ⟨p, n, hc⟩ := hrel.vnode c
  refine ⟨h.listed.drop ha.2, ?_, fun b hb hbc => ?_, fun b hb => ?_, fun b => ?_⟩
  · refine ⟨by rw [halloc, Function.update_of_ne hac.symm]; exact h.console.allocated, ?_, ?_,
      ?_, ?_⟩ <;>
      rw [hother c hac.symm, hc]
    · exact h.console.extra
    · exact h.console.fs
    · exact h.console.maxReaders
    · exact h.console.maxWriters
  · have hba : b ≠ a := by
      rintro rfl
      simp [halloc] at hb
    rw [halloc, Function.update_of_ne hba] at hb
    obtain ⟨p, n, hv⟩ := hrel.vnode b
    rw [hother b hba, hv]
    exact h.nfs b hb hbc
  · by_cases hba : b = a
    · subst hba
      rw [hself]
    · rw [halloc, Function.update_of_ne hba] at hb
      obtain ⟨p, n, hv⟩ := hrel.vnode b
      rw [hother b hba, hv]
      exact h.blank b hb
  · obtain ⟨p, n, hv⟩ := hrel.vnode b
    by_cases hba : b = a
    · subst hba
      rw [hself, hv]
      exact h.small b
    · rw [hother b hba, hv]
      exact h.small b

theorem Kinds.openErr (he : Vfs.Errs f a) : (f.openErr a).Kinds c := by
  unfold Files.openErr
  split
  · next hu => exact h.drop (he hu)
  · exact h

/-- The block that `malloc` hands out is not the console. -/
theorem Kinds.made (ha : f.allocated a = false) (path : Path)
    (readers writers : Nat) : ((f.made a path readers writers).addVnode a).Kinds c := by
  have hac : c ≠ a := by
    rintro rfl
    rw [h.console.allocated] at ha
    simp at ha
  have hrel := (f.made a path readers writers).relinked_addVnode a
  have halloc : ((f.made a path readers writers).addVnode a).allocated =
      Function.update f.allocated a true := hrel.allocated
  have hother : ∀ b, b ≠ a → (f.made a path readers writers).vnodes b = f.vnodes b :=
    fun b => f.made_vnodes_of_ne path readers writers
  have hself : ∀ v, v = (f.made a path readers writers).vnodes a → v.fs = .nfs ∧
      v.extra = .nfsFile none ∧ v.Small := by
    rintro v rfl
    exact ⟨by simp [Files.made, opening], by simp [Files.made, opening],
      by simp [Files.made, opening, VNode.Small, wordLimit]⟩
  obtain ⟨p, n, hc⟩ := hrel.vnode c
  refine ⟨h.listed.made ha path readers writers, ?_, fun b hb hbc => ?_, fun b hb => ?_,
    fun b => ?_⟩
  · refine ⟨by rw [halloc, Function.update_of_ne hac]; exact h.console.allocated, ?_, ?_,
      ?_, ?_⟩ <;>
      rw [hc, hother c hac]
    · exact h.console.extra
    · exact h.console.fs
    · exact h.console.maxReaders
    · exact h.console.maxWriters
  · obtain ⟨p, n, hv⟩ := hrel.vnode b
    rw [hv]
    by_cases hba : b = a
    · subst hba
      obtain ⟨hfs, he, -⟩ := hself _ rfl
      exact ⟨hfs, by simp [he]⟩
    · rw [halloc, Function.update_of_ne hba] at hb
      rw [hother b hba]
      exact h.nfs b hb hbc
  · obtain ⟨p, n, hv⟩ := hrel.vnode b
    have hba : b ≠ a := by
      rintro rfl
      simp [halloc] at hb
    rw [halloc, Function.update_of_ne hba] at hb
    rw [hv, hother b hba]
    exact h.blank b hb
  · obtain ⟨p, n, hv⟩ := hrel.vnode b
    rw [hv]
    by_cases hba : b = a
    · subst hba
      exact (hself _ rfl).2.2
    · rw [hother b hba]
      exact h.small b

theorem Kinds.install {pid : Pid} {p : Process} {fd : Fin 19} {i : Fin 16}
    {mode : Nat} {v : VNode} (hv : (f.vnodes a).increaseRefs mode = .ok v) :
    (f.install pid p fd i a mode v).Kinds c := by
  obtain ⟨hw, -⟩ := VNode.increaseRefs_ok hv
  refine Kinds.of_vnodes (h.setVnode (v := v) ?_ ((h.small a).increaseRefs hv) (.inl ?_)) rfl
    rfl rfl rfl
  · rw [hw]
    exact ⟨rfl, rfl, rfl, rfl, rfl⟩
  · rw [hw]

theorem Kinds.unname (pid : Pid) (p : Process) (fd : Int) (i : Fin 16) :
    (f.unname pid p fd i a).Kinds c := by
  have hproc : (f.setProcess pid (p.forget fd i)).Kinds c := h.of_vnodes rfl rfl rfl rfl
  unfold Files.unname
  split
  · exact hproc.setVnode ⟨rfl, rfl, rfl, rfl, rfl⟩ ((h.small a).decreaseRefs _) (.inl rfl)
  · exact hproc

theorem Kinds.upd (pid : Pid) (g : Process → Process) : (f.upd pid g).Kinds c := by
  unfold Files.upd
  split
  · exact h.of_vnodes rfl rfl rfl rfl
  · exact h

end Kinds

end Files

/-! ## Steps -/

namespace Vfs

variable {s t : Vfs} {e : Event} {pid : Pid} {a mode c : Nat}

/-- What an open finds in the list, if it gets that far. -/
def openTarget (s : Vfs) (pid : Pid) (path : Path) (mode : Nat) : Option (Option Nat) :=
  match s.process? pid with
  | none => none
  | some p =>
    match openPath p path mode with
    | .error _ => none
    | .ok path => s.files.findVnode path

theorem openTarget_eq {p : Process} {path path' : Path} (hp : s.files.sosProcs pid = .pcb p)
    (hpath : openPath p path mode = .ok path') :
    s.openTarget pid path mode = s.files.findVnode path' := by
  simp [openTarget, process?, hp, Slot.pcb?, hpath]

/-- An open makes a vnode that its own locks keep it from opening. -/
def MakesLockedOut (s : Vfs) : Event → Prop
  | .open pid path mode readers writers _ | .psOpen pid path mode readers writers _ =>
    s.openTarget pid path (mode % 256) = some none ∧
      LockedOut (mode % 256) (readers % wordLimit) (writers % wordLimit)
  | _ => False

instance (s : Vfs) (e : Event) : Decidable (MakesLockedOut s e) := by
  unfold MakesLockedOut
  rcases e <;> infer_instance

theorem OpenDone.kinds {status : Int} (ho : OpenDone s pid a mode status t)
    (h : s.files.Kinds c) : t.files.Kinds c := by
  cases ho with
  | gone _ he => exact h.openErr he
  | failed _ he _ =>
    rw [replied_files]
    exact h.openErr he
  | @full p v _ _ hv _ he =>
    rw [replied_files]
    have hback : s.files.setVnode a (v.decreaseRefs mode) = s.files := by
      rw [(h.small a).decreaseRefs_increaseRefs hv]
      simp [Files.setVnode]
    rw [hback] at he ⊢
    exact h.openErr he
  | done _ _ hv _ =>
    rw [replied_files]
    exact h.install hv

theorem Closed.kinds {fd : Int} (hc : Closed s pid fd t) (h : s.files.Kinds c) :
    t.files.Kinds c := by
  cases hc with
  | notOpen => exact h
  | kept _ _ hf _ =>
    rw [replied_files, hf]
    exact h.unname ..
  | @last p i a f _ _ hf _ hfs halloc =>
    rw [replied_files]
    have hk : f.Kinds c := hf ▸ h.unname ..
    have hac : a ≠ c := by
      rintro rfl
      rw [hk.console.fs] at hfs
      simp at hfs
    exact (hk.freeNfsfile hac).drop ⟨by simp [Files.freeNfsfile], halloc⟩
  | console _ _ hf _ _ =>
    rw [replied_files, hf]
    exact h.unname ..

theorem Dupped.kinds {forig fdup : Int} (hd : Dupped s pid forig fdup t) (h : s.files.Kinds c) :
    t.files.Kinds c := by
  cases hd with
  | refused => rwa [replied_files]
  | copied =>
    rw [replied_files]
    exact (h.upd pid _).upd pid _
  | replaced _ _ _ hu =>
    rw [replied_files]
    exact (((hu.kinds (h.upd pid _)).upd pid _).upd pid _).upd pid _

theorem Answers.kinds (ha : Answers s pid t) (h : s.files.Kinds c) : t.files.Kinds c := by
  obtain ⟨f, n, words, hf, rfl⟩ := ha
  rw [replied_files]
  exact h.quiet hf

/-- The vnodes are in order, and no request is about the console. -/
structure Sorted (s : Vfs) : Prop where
  files : s.files.Kinds s.console.vnode
  requests : ∀ rq ∈ s.nfs.requests, rq.rt.vnode? ≠ some s.console.vnode

theorem sorted_of_started (h : Started s) : s.Sorted := by
  obtain ⟨sosProcs, incs, a, rfl, -⟩ := h
  have hne : ∀ b, b ≠ a → (vfsInit sosProcs incs a).files.vnodes b = {} := fun b hb => by
    simp [vfsInit, hb]
  have hself : (vfsInit sosProcs incs a).files.vnodes a = consoleVnode := by simp [vfsInit]
  have halloc : ∀ b, (vfsInit sosProcs incs a).files.allocated b = true ↔ b = a := fun b => by
    by_cases hb : b = a <;> simp [vfsInit, hb]
  refine ⟨⟨⟨[a], ⟨.singleton ?_ ?_, by simp⟩, by simp [halloc], Nat.le_refl 1⟩, ?_, ?_, ?_, ?_⟩,
    nofun⟩
  · rw [hself]; rfl
  · rw [hself]; rfl
  · exact ⟨(halloc a).mpr rfl, congrArg VNode.extra hself, congrArg VNode.fs hself,
      congrArg VNode.maxReaders hself, congrArg VNode.maxWriters hself⟩
  · exact fun b hb hba => absurd ((halloc b).mp hb) hba
  · intro b hb
    have hba : b ≠ a := fun hba => by simp [(halloc b).mpr hba] at hb
    rw [hne b hba]
  · intro b
    by_cases hb : b = a
    · rw [hb, hself]
      exact ⟨by decide, by decide⟩
    · rw [hne b hb]
      exact ⟨by decide, by decide⟩

theorem Sorted.of_frame (h : s.Sorted) (hf : Frame s t) (hk : t.files.Kinds s.console.vnode) :
    t.Sorted := by
  refine ⟨by rw [hf.console]; exact hk, ?_⟩
  rw [hf.nfs, hf.console]
  exact h.requests

/-- A request that is not about the console is added. -/
theorem Sorted.requested (h : s.Sorted) {rt : RequestType}
    (hrt : rt.vnode? ≠ some s.console.vnode) : (s.requested pid rt).Sorted := by
  refine ⟨h.files, fun rq hrq => ?_⟩
  have hrq' : rq ∈ s.nfs.requests ++ [s.nfs.newRequest pid rt s.caller] := by
    rw [← Nfs.request_requests s.nfs s.files]
    exact hrq
  rcases List.mem_append.mp hrq' with hold | hnew
  · exact h.requests rq hold
  · rw [List.mem_singleton.mp hnew]
    exact hrt

theorem Sorted.removed (h : s.Sorted) (rq : NfsRequest) : (s.removed rq).Sorted := by
  refine ⟨h.files, fun r hr => h.requests r ?_⟩
  have hr' : r ∈ (s.nfs.remove s.files rq).requests := hr
  rw [Nfs.remove_requests] at hr'
  exact List.mem_of_mem_eraseP hr'

theorem Opened.sorted {path : Path} {readers writers block : Nat}
    (ho : Opened s pid path mode readers writers block t) (h : s.Sorted)
    (hblock : s.files.allocated block = false)
    (hlock : ¬ (s.openTarget pid path mode = some none ∧ LockedOut mode readers writers)) :
    t.Sorted := by
  have hne : block ≠ s.console.vnode := by
    rintro rfl
    rw [h.files.console.allocated] at hblock
    simp at hblock
  cases ho with
  | null => exact h
  | refused =>
    exact h.of_frame (frame_replied s s.files pid _ _) (by rw [replied_files]; exact h.files)
  | shared _ _ _ _ hd => exact h.of_frame hd.frame (hd.kinds h.files)
  | @made p path' f hp hpath hfind _ hf =>
    refine ⟨?_, fun rq hrq => ?_⟩
    · rw [hf]
      exact h.files.made hblock path' readers writers
    · have hrq' : rq ∈ s.nfs.requests ++ [s.nfs.newRequest pid (.lookup block mode) s.caller] := by
        rw [← Nfs.request_requests s.nfs f]
        exact hrq
      rcases List.mem_append.mp hrq' with hold | hnew
      · exact h.requests rq hold
      · rw [List.mem_singleton.mp hnew]
        exact fun hv => hne (Option.some.inj hv)
  | lockedOut hp hpath hfind hl _ =>
    exact absurd ⟨(openTarget_eq hp hpath).trans hfind, hl⟩ hlock

theorem Answers.sorted (ha : Answers s pid t) (h : s.Sorted) : t.Sorted := by
  obtain ⟨n, hf⟩ := ha.frame
  have h' : { s with console := { s.console with bufUsed := n } : Vfs }.Sorted :=
    ⟨h.files, h.requests⟩
  exact h'.of_frame hf (ha.kinds h.files)

theorem Asks.vnode?_ne {rt : RequestType} (hrt : s.Asks pid rt) (h : s.Sorted) :
    rt.vnode? ≠ some s.console.vnode := by
  -- A read or a write is on a vnode of NFS.
  have hnfs : ∀ a, (s.files.vnodes a).fs = .nfs → some a ≠ some s.console.vnode := by
    rintro a hfs ha
    rw [Option.some.inj ha, h.files.console.fs] at hfs
    simp at hfs
  cases rt with
  | lookup => exact absurd hrt id
  | read a | write a =>
    obtain ⟨_, _, _, _, hfs, _⟩ := hrt
    exact hnfs a hfs
  | stat => exact nofun
  | dir => exact nofun
  | remove => exact nofun

theorem Called.sorted {silent : Prop} (hc : Called s pid silent t) (h : s.Sorted) : t.Sorted := by
  cases hc with
  | silent => exact h
  | answered ha => exact ha.sorted h
  | requested hrt => exact h.requested (hrt.vnode?_ne h)
  | reader => exact ⟨h.files, h.requests⟩

theorem Completed.sorted {token : Nat} {ans : RpcAnswer} (hc : Completed s token ans t)
    (h : s.Sorted) : t.Sorted := by
  cases hc with
  | unknown => exact h
  | @lookedUp rq a mode u hrq hrt _ he ho =>
    have hne : a ≠ s.console.vnode := fun ha =>
      h.requests rq (List.mem_of_find?_eq_some hrq) (by rw [hrt, ha]; rfl)
    have h' : ((s.resumed rq).withFiles (s.files.filled a ans)).Sorted :=
      ⟨h.files.filled hne he ans, h.requests⟩
    exact (h'.of_frame ho.frame (ho.kinds h'.files)).removed rq
  | missing => exact ⟨h.files, h.requests⟩
  | @failed rq a mode u hrq hrt _ ho =>
    have hne : a ≠ s.console.vnode := fun ha =>
      h.requests rq (List.mem_of_find?_eq_some hrq) (by rw [hrt, ha]; rfl)
    have h' : ((s.resumed rq).withFiles (s.files.freeNfsfile a)).Sorted :=
      ⟨h.files.freeNfsfile hne, h.requests⟩
    exact (h'.of_frame ho.frame (ho.kinds h'.files)).removed rq
  | @answered rq u _ _ ha =>
    have h' : (s.resumed rq).Sorted := ⟨h.files, h.requests⟩
    exact (ha.sorted h').removed rq
  | more =>
    refine ⟨h.files, fun rq hrq => ?_⟩
    obtain ⟨r, hr, rfl⟩ := List.mem_map.mp hrq
    split
    · exact nofun
    · exact h.requests r hr

theorem Typed.sorted (ht : Typed s t) (h : s.Sorted) : t.Sorted := by
  cases ht with
  | idle => exact h
  | kept => exact ⟨h.files, h.requests⟩
  | @line r u _ ha =>
    have h' : { s with caller := r.caller : Vfs }.Sorted := ⟨h.files, h.requests⟩
    have hu := ha.sorted h'
    exact ⟨hu.files, hu.requests⟩

theorem Step.sorted (hst : Step s e t) (h : s.Sorted) (hlock : ¬ MakesLockedOut s e) :
    t.Sorted := by
  have hcalled : ∀ pid own, (s.called pid own).Sorted := fun _ _ => ⟨h.files, h.requests⟩
  cases hst.handled with
  | opened own pid path mode readers writers block he ho =>
    have hblock : s.files.allocated block = false := by
      refine hst.1.1 block ?_
      rw [he]
      cases own <;> rfl
    refine ho.sorted (hcalled pid own) hblock fun hm => hlock ?_
    rw [he]
    cases own <;> exact hm
  | closed own pid fd _ hc => exact (hcalled pid own).of_frame hc.frame (hc.kinds h.files)
  | dupped own pid forig fdup _ hd => exact (hcalled pid own).of_frame hd.frame (hd.kinds h.files)
  | called own pid _ _ hc => exact hc.sorted (hcalled pid own)
  | completed i rpc ans _ _ hc => exact hc.sorted ⟨h.files, h.requests⟩
  | typed newline _ ht => exact ht.sorted h
  | reserved | spawned => exact ⟨h.files.of_vnodes rfl rfl rfl rfl, h.requests⟩
  | turned => exact ⟨h.files.upd _ _, h.requests⟩
  | retired => exact ⟨h.files.of_vnodes rfl rfl rfl rfl, h.requests⟩

theorem Reachable.sorted {C : Vfs → Event → Prop} (hC : ∀ s e, C s e → ¬ MakesLockedOut s e)
    (h : Reachable C s) : s.Sorted :=
  h.invariant (fun _ => sorted_of_started) fun s e _ hs hc hst => hst.sorted hs (hC s e hc)

end Vfs

end Sos
