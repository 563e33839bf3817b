import Sos.Properties.Requests

/-!
# An open file over NFS

The sequential file (`SeqFile`), which is what an open file is for, and what the calls and callbacks
of `vfs.c` and `nfsfs.c` do with the entry of an open file, its mode and its position (`HasFile`).
The position is read when a request is made and moved on in the callback, which looks the descriptor
up again; the number of bytes is limited when the call is made and reported by the file system.
-/

namespace Sos.Vfs

open Hoare

/-! ## The sequential file -/

inductive FileOp
  | read (n : Nat)
  | write (data : List UInt8)
  | seekSet (pos : Int)
  | seekCur (pos : Int)
deriving DecidableEq, Repr

/-- What the caller gets: the reply, and the bytes that have been read. -/
structure Outcome where
  words : List Int
  data : List UInt8
deriving DecidableEq, Repr

/-- The `n` bytes at `pos`, as far as there are any. -/
def slice (content : List UInt8) (pos n : Nat) : List UInt8 := (content.drop pos).take n

/-- The bytes with `data` at `pos`; a gap behind the end is filled with zeros. -/
def overwrite (content : List UInt8) (pos : Nat) (data : List UInt8) : List UInt8 :=
  if data = [] then content
  else
    (content ++ List.replicate (pos - content.length) 0).take pos ++ data ++
      content.drop (pos + data.length)

/-- A file with one offset, a number of 32 bits. -/
structure SeqFile where
  content : List UInt8
  offset : Nat
  mode : Nat
deriving DecidableEq, Repr

namespace SeqFile

/-- An operation, when the server has answered with the status `st`. -/
def perform (f : SeqFile) (st : NfsStatus) : FileOp → SeqFile × Outcome
  | .read n =>
    let count := min (min n ioMaxBuffer) (f.content.length - f.offset)
    if reads f.mode = false then (f, ⟨[vfsPerm], []⟩)
    else if st ≠ .ok then (f, ⟨[st.toVfs], []⟩)
    else if count = 0 then (f, ⟨[vfsEof], []⟩)
    else
      ({ f with offset := (f.offset + count) % wordLimit },
        ⟨[(count : Int)], slice f.content f.offset count⟩)
  | .write data =>
    let stored := data.take ioMaxBuffer
    if writes f.mode = false then (f, ⟨[vfsPerm], []⟩)
    else if st ≠ .ok then (f, ⟨[st.toVfs], []⟩)
    else
      ({ f with
          content := overwrite f.content f.offset stored
          offset := (f.offset + stored.length) % wordLimit },
        ⟨[(stored.length : Int), sosWrite], []⟩)
  | .seekSet pos => ({ f with offset := (pos % wordLimit).toNat }, ⟨[vfsOk], []⟩)
  | .seekCur pos => ({ f with offset := ((f.offset + pos) % wordLimit).toNat }, ⟨[vfsOk], []⟩)

/-- The file after some operations. -/
def after (f : SeqFile) (ops : List (FileOp × NfsStatus)) : SeqFile :=
  ops.foldl (fun f x => (f.perform x.2 x.1).1) f

/-- What they give their callers. -/
def outcomes : SeqFile → List (FileOp × NfsStatus) → List Outcome
  | _, [] => []
  | f, x :: ops => (f.perform x.2 x.1).2 :: outcomes (f.perform x.2 x.1).1 ops

theorem after_append (f : SeqFile) (ops : List (FileOp × NfsStatus)) (x : FileOp × NfsStatus) :
    f.after (ops ++ [x]) = ((f.after ops).perform x.2 x.1).1 := by
  unfold after
  rw [List.foldl_append]
  rfl

theorem outcomes_append (f : SeqFile) (ops : List (FileOp × NfsStatus)) (x : FileOp × NfsStatus) :
    f.outcomes (ops ++ [x]) = f.outcomes ops ++ [((f.after ops).perform x.2 x.1).2] := by
  induction ops generalizing f with
  | nil => rfl
  | cons y ops ih =>
    rw [List.cons_append, outcomes, ih]
    rfl

end SeqFile

/-! ## The open file -/

/-- A process, an entry of its `files`, and the vnode and handle that are open there. -/
structure Site where
  pid : Pid
  i : Fin 16
  a : Nat
  fh : Nat

/-- The copy buffer of the process. -/
def Site.buffer (x : Site) (s : Vfs) (j : Nat) : UInt8 := s.files.buffers (pagerBuffer x.pid + j)

/-- The file layer, with the bytes that the server has under the handle. -/
structure Mounted where
  vfs : Vfs
  content : List UInt8

variable {s t : Vfs} {x : Site} {p : Process} {f : SeqFile} {fd : Int} {n : Nat}

/-- The entry is open over NFS, with mode and position as the sequential file has them. -/
structure HasFile (s : Vfs) (x : Site) (f : SeqFile) : Prop where
  process : ∃ p, s.files.sosProcs x.pid = .pcb p ∧ (p.files x.i).vnode = some x.a ∧
    (p.files x.i).fmode = f.mode ∧ (p.files x.i).fp = f.offset
  answerable : answerable s.files x.pid = true
  fs : (s.files.vnodes x.a).fs = .nfs
  extra : (s.files.vnodes x.a).extra = .nfsFile (some x.fh)
  offset : f.offset < wordLimit

/-- The descriptor names the entry. -/
def Names (s : Vfs) (x : Site) (fd : Int) : Prop :=
  ∃ p, s.files.sosProcs x.pid = .pcb p ∧ p.vfile? fd = some x.i

instance : Decidable (HasFile s x f) :=
  decidable_of_iff ((∃ p ∈ s.process? x.pid, (p.files x.i).vnode = some x.a ∧
      (p.files x.i).fmode = f.mode ∧ (p.files x.i).fp = f.offset) ∧
      Vfs.answerable s.files x.pid = true ∧ (s.files.vnodes x.a).fs = .nfs ∧
      (s.files.vnodes x.a).extra = .nfsFile (some x.fh) ∧ f.offset < wordLimit)
    ⟨fun ⟨⟨p, hp, h⟩, h₁, h₂, h₃, h₄⟩ => ⟨⟨p, slot_of_process? hp, h⟩, h₁, h₂, h₃, h₄⟩,
      fun ⟨⟨p, hp, h⟩, h₁, h₂, h₃, h₄⟩ => ⟨⟨p, process?_of_slot hp, h⟩, h₁, h₂, h₃, h₄⟩⟩

instance : Decidable (Names s x fd) :=
  decidable_of_iff (∃ p ∈ s.process? x.pid, p.vfile? fd = some x.i)
    ⟨fun ⟨p, hp, h⟩ => ⟨p, slot_of_process? hp, h⟩, fun ⟨p, hp, h⟩ => ⟨p, process?_of_slot hp, h⟩⟩

/-! ## The calls -/

theorem getVfile_returns (hp : s.files.sosProcs x.pid = .pcb p) (hfd : p.vfile? fd = some x.i)
    (ipc : Bool) : Returns (getVfile x.pid fd ipc) s (some (p, x.i)) s := by
  unfold getVfile
  rw [Returns, wp_bind, wp_get, hp]
  dsimp only
  rw [hfd]
  exact wp_pure.mpr ⟨rfl, rfl⟩

theorem Names.vfile? (h : Names s x fd) (hp : s.files.sosProcs x.pid = .pcb p) :
    p.vfile? fd = some x.i := by
  obtain ⟨q, hq, hname⟩ := h
  rwa [Slot.pcb.inj (hp.symm.trans hq)]

theorem reply_returns {pid : Pid} (hp : s.files.sosProcs pid = .pcb p) (words : List Int) :
    Returns (syscallReplyV pid words) s () (s.replied pid words) := by
  unfold syscallReplyV
  rw [Returns, wp_bind, wp_get, hp]
  exact wp_modify.mpr ⟨rfl, rfl⟩

/-- A read is refused, or asked of the server at the offset. -/
theorem vfsRead_returns (h : HasFile s x f) (hfd : Names s x fd) (n : Nat) :
    Returns (vfsRead x.pid fd n) s ()
      (if reads f.mode = false then s.replied x.pid [vfsPerm]
        else s.requested x.pid (.read x.a fd f.offset (min n ioMaxBuffer))) := by
  obtain ⟨p, hp, hv, hmode, hfp⟩ := h.process
  have hname := hfd.vfile? hp
  unfold vfsRead
  rw [Returns, (getVfile_returns hp hname true).bind_iff]
  dsimp only
  rw [hmode, hv, hfp]
  cases hread : reads f.mode with
  | false => exact reply_returns hp [vfsPerm]
  | true =>
    unfold nfsfsRead
    rw [if_neg (by simp), if_neg (by simp), wp_bind, wp_get, h.fs]
    dsimp only
    rw [wp_bind, wp_get, h.extra, if_neg (by simp)]
    exact (request_spec ..).imp fun _ _ ht => ⟨rfl, ht⟩

theorem vfsWrite_returns (h : HasFile s x f) (hfd : Names s x fd) (n : Nat) (newline : Bool)
    (sends : List Int) :
    Returns (vfsWrite x.pid fd n newline sends) s ()
      (if writes f.mode = false then s.replied x.pid [vfsPerm]
        else s.requested x.pid (.write x.a fd f.offset (min n ioMaxBuffer))) := by
  obtain ⟨p, hp, hv, hmode, hfp⟩ := h.process
  have hname := hfd.vfile? hp
  unfold vfsWrite
  rw [Returns, (getVfile_returns hp hname true).bind_iff]
  dsimp only
  rw [hmode, hv, hfp]
  cases hwrite : writes f.mode with
  | false => exact reply_returns hp [vfsPerm]
  | true =>
    unfold nfsfsWrite
    rw [if_neg (by simp), if_neg (by simp), wp_bind, wp_get, h.fs]
    dsimp only
    rw [wp_bind, wp_get, h.extra, if_neg (by simp)]
    exact (request_spec ..).imp fun _ _ ht => ⟨rfl, ht⟩

/-- The state with another position in the open file. -/
def seeked (s : Vfs) (x : Site) (p : Process) (fp : Int) : Vfs :=
  s.withFiles (s.files.setProcess x.pid (p.setFile x.i { p.files x.i with fp := fp }))

theorem seeked_slot {fp : Int} : (s.seeked x p fp).files.sosProcs x.pid =
    .pcb (p.setFile x.i { p.files x.i with fp := fp }) := Function.update_self ..

theorem HasFile.seeked (h : HasFile s x f) (hp : s.files.sosProcs x.pid = .pcb p) {offset : Nat}
    (hlt : offset < wordLimit) (content : List UInt8) :
    HasFile (s.seeked x p offset) x { f with content := content, offset := offset } := by
  obtain ⟨q, hq, hv, hmode, -⟩ := h.process
  obtain rfl : p = q := Slot.pcb.inj (hp.symm.trans hq)
  refine ⟨⟨_, seeked_slot, ?_, ?_, ?_⟩, ?_, h.fs, h.extra, hlt⟩
  · simpa [Process.setFile] using hv
  · simpa [Process.setFile] using hmode
  · simp [Process.setFile]
  · have hans := h.answerable
    unfold Vfs.answerable at hans ⊢
    rw [hp] at hans
    rw [seeked_slot]
    exact hans

/-- A seek to wherever `whence` says. -/
theorem vfsLseek_to (h : HasFile s x f) (hp : s.files.sosProcs x.pid = .pcb p)
    (hname : p.vfile? fd = some x.i) {pos whence : Int} {offset : Nat}
    (hto : (if whence = seekSet then pos % wordLimit
      else if whence = seekCur then (f.offset + pos) % wordLimit
      else if whence = seekEnd then ((s.files.vnodes x.a).stSize - pos) % wordLimit
      else f.offset) = (offset : Int)) :
    Returns (vfsLseek x.pid fd pos whence) s () ((s.seeked x p offset).replied x.pid [vfsOk]) := by
  obtain ⟨q, hq, hv, -, hfp⟩ := h.process
  obtain rfl : p = q := Slot.pcb.inj (hp.symm.trans hq)
  unfold vfsLseek
  rw [Returns, (getVfile_returns hp hname true).bind_iff]
  dsimp only
  rw [hv]
  dsimp only
  rw [wp_bind, wp_get, wp_bind, wp_modifyFiles, ← hv, hfp, hto]
  exact reply_returns seeked_slot [vfsOk]

theorem vfsLseek_returns (h : HasFile s x f) (hp : s.files.sosProcs x.pid = .pcb p)
    (hname : p.vfile? fd = some x.i) {op : FileOp} {pos whence : Int}
    (hop : op = .seekSet pos ∧ whence = seekSet ∨ op = .seekCur pos ∧ whence = seekCur) :
    Returns (vfsLseek x.pid fd pos whence) s ()
      ((s.seeked x p (f.perform .ok op).1.offset).replied x.pid [vfsOk]) := by
  refine vfsLseek_to h hp hname ?_
  rcases hop with ⟨rfl, rfl⟩ | ⟨rfl, rfl⟩
  · rw [if_pos rfl]
    exact (Int.toNat_of_nonneg (Int.emod_nonneg _ (by decide))).symm
  · rw [if_neg (by decide), if_pos rfl]
    exact (Int.toNat_of_nonneg (Int.emod_nonneg _ (by decide))).symm

/-! ## The callbacks -/

theorem vfsReadDone_returns (hp : s.files.sosProcs x.pid = .pcb p) (hname : p.vfile? fd = some x.i)
    (nbyte status : Int) :
    Returns (vfsReadDone x.pid fd nbyte status) s ()
      (if status < 0 then s.replied x.pid [status]
        else (s.seeked x p (((p.files x.i).fp + nbyte) % wordLimit)).replied x.pid
          [if status = 0 then vfsEof else status]) := by
  unfold vfsReadDone advance
  rw [Returns, (getVfile_returns hp hname true).bind_iff]
  dsimp only
  split
  · exact reply_returns hp _
  · rw [wp_bind, wp_modifyFiles]
    exact reply_returns seeked_slot _

theorem vfsWriteDone_returns (hp : s.files.sosProcs x.pid = .pcb p)
    (hname : p.vfile? fd = some x.i) (nbyte status : Int) :
    Returns (vfsWriteDone x.pid fd nbyte status) s ()
      (if status < 0 then s.replied x.pid [status]
        else (s.seeked x p (((p.files x.i).fp + nbyte) % wordLimit)).replied x.pid
          [status, sosWrite]) := by
  unfold vfsWriteDone advance
  split
  · exact reply_returns hp _
  · rw [Returns, (getVfile_returns hp hname true).bind_iff, wp_bind, wp_modifyFiles]
    exact reply_returns seeked_slot _

theorem HasFile.of_files (h : HasFile s x f) (hf : t.files = s.files) : HasFile t x f := by
  obtain ⟨h₁, h₂, h₃, h₄, h₅⟩ := h
  rw [← hf] at h₁ h₂ h₃ h₄
  exact ⟨h₁, h₂, h₃, h₄, h₅⟩

theorem Names.of_files (h : Names s x fd) (hf : t.files = s.files) : Names t x fd := by
  unfold Names at h ⊢
  rw [hf]
  exact h

theorem vfile?_setFile_fp (p : Process) (i : Fin 16) (fp : Int) (fd : Int) :
    (p.setFile i { p.files i with fp := fp }).vfile? fd = p.vfile? fd := by
  have hvnode : ∀ j, ((p.setFile i { p.files i with fp := fp }).files j).vnode =
      (p.files j).vnode := by
    intro j
    by_cases hj : j = i
    · simp [Process.setFile, hj]
    · simp [Process.setFile, hj]
  unfold Process.vfile? Process.fdFile?
  simp only [hvnode]
  rfl

theorem Names.seeked (h : Names s x fd) (hp : s.files.sosProcs x.pid = .pcb p) {fp : Int} :
    Names (s.seeked x p fp) x fd :=
  ⟨_, seeked_slot, (vfile?_setFile_fp ..).trans (h.vfile? hp)⟩

theorem HasFile.cpStats (h : HasFile s x f) (attr : Fattr) :
    HasFile (s.withFiles (s.files.cpStats x.a attr)) x f := by
  refine ⟨h.process, h.answerable, ?_, ?_, h.offset⟩
  · simpa [withFiles, Files.cpStats] using h.fs
  · simpa [withFiles, Files.cpStats] using h.extra

/-- The state with other contents of the copy buffers. -/
def withBuffers (s : Vfs) (b : Nat → UInt8) : Vfs := s.withFiles { s.files with buffers := b }

theorem HasFile.withBuffers (h : HasFile s x f) (b : Nat → UInt8) : HasFile (s.withBuffers b) x f :=
  ⟨h.process, h.answerable, h.fs, h.extra, h.offset⟩

/-- A call of the process is answered, and the file is as `g` says. -/
structure Answered (s : Vfs) (x : Site) (words : List Int) (g : SeqFile) (t : Vfs) : Prop where
  file : HasFile t x g
  reply : ∃ c, t.replies = s.replies ++ [⟨x.pid, words, c, none⟩]
  names : ∀ fd, Names s x fd → Names t x fd

theorem HasFile.replied (h : HasFile s x f) (words : List Int) :
    Answered s x words f (s.replied x.pid words) := by
  refine ⟨h.of_files (replied_files ..), ⟨s.caller, ?_⟩,
    fun fd hfd => hfd.of_files (replied_files ..)⟩
  unfold Vfs.replied
  rw [if_pos h.answerable]

theorem Answered.of_start {u : Vfs} {words : List Int} {g : SeqFile} (h : Answered u x words g t)
    (hr : u.replies = s.replies) (hn : ∀ fd, Names s x fd → Names u x fd) :
    Answered s x words g t :=
  ⟨h.file, hr ▸ h.reply, fun fd hfd => h.names fd (hn fd hfd)⟩

/-- The position is moved on, and the call answered. -/
theorem HasFile.advanced (h : HasFile s x f) (hp : s.files.sosProcs x.pid = .pcb p) (n : Nat)
    (content : List UInt8) (words : List Int) :
    Answered s x words { f with content := content, offset := (f.offset + n) % wordLimit }
      ((s.seeked x p (((p.files x.i).fp + n) % wordLimit)).replied x.pid words) := by
  obtain ⟨q, hq, -, -, hfp⟩ := h.process
  obtain rfl : p = q := Slot.pcb.inj (hp.symm.trans hq)
  have hpos : ((p.files x.i).fp + n) % wordLimit = (((f.offset + n) % wordLimit : Nat) : Int) := by
    rw [hfp]
    push_cast
    rfl
  rw [hpos]
  obtain ⟨hfile, hreply, hnames⟩ :=
    (h.seeked hp (Nat.mod_lt (f.offset + n) (by decide)) content).replied words
  exact ⟨hfile, hreply, fun fd hfd => hnames fd (hfd.seeked hp)⟩

theorem removeRequest_returns (rq : NfsRequest) : Returns (removeRequest rq) s () (s.removed rq) :=
  (removeRequest_spec rq).imp fun _ _ h => ⟨rfl, h⟩

/-- The answer to a read that has been asked at the offset. -/
theorem readCb_returns {rq : NfsRequest} {ans : RpcAnswer} (h : HasFile s x f) (hfd : Names s x fd)
    (hpid : rq.pid = x.pid) (hread : reads f.mode = true) (hbytes : ans.status = .ok →
      ans.bytesRead = (min (min n ioMaxBuffer) (f.content.length - f.offset) : Nat)) :
    ∃ u, Returns (readCb rq x.a fd ans) s () (u.removed rq) ∧ u.nfs = s.nfs ∧
      (ans.status = .ok → u.files.buffers =
        blit s.files.buffers (pagerBuffer x.pid) ans.bytesRead.toNat fun j => ans.data.getD j 0) ∧
      Answered s x (f.perform ans.status (.read n)).2.words
        (f.perform ans.status (.read n)).1 u := by
  obtain ⟨p, hp, hname⟩ := hfd
  unfold readCb buf
  rw [hpid]
  by_cases hok : ans.status = .ok
  · -- the data is copied and the attributes of the vnode are set first
    have hmay : ¬ reads f.mode = false := by simp [hread]
    unfold SeqFile.perform
    dsimp only
    rw [if_neg hmay, if_neg (not_not_intro hok), if_neg (not_not_intro hok), hbytes hok]
    generalize min (min n ioMaxBuffer) (f.content.length - f.offset) = count
    let copied := s.withBuffers
      (blit s.files.buffers (pagerBuffer x.pid) (count : Int).toNat fun j => ans.data.getD j 0)
    have hstats := (h.withBuffers copied.files.buffers).cpStats ans.attr
    have hdone := vfsReadDone_returns (s := copied.withFiles (copied.files.cpStats x.a ans.attr))
      (x := x) hp hname count count
    rw [if_neg (by omega)] at hdone
    have hadvanced := hstats.advanced hp count f.content
      [if (count : Int) = 0 then vfsEof else count]
    refine ⟨((copied.withFiles (copied.files.cpStats x.a ans.attr)).seeked x p
      (((p.files x.i).fp + count) % wordLimit)).replied x.pid
        [if (count : Int) = 0 then vfsEof else count], ?_, replied_nfs .., fun _ => ?_, ?_⟩
    · rw [Returns, wp_bind, wp_modifyFiles]
      exact hdone.bind_iff.mpr (removeRequest_returns rq)
    · rw [replied_files]
      rfl
    · have hstart := hadvanced.of_start (s := s) rfl fun _ => id
      by_cases hzero : count = 0
      · rw [hzero, Nat.add_zero, Nat.mod_eq_of_lt h.offset] at hstart
        rw [if_pos hzero, hzero]
        exact hstart
      · have hne : ¬ (count : Int) = 0 := by omega
        rw [if_neg hne] at hstart ⊢
        rw [if_neg hzero]
        exact hstart
  · refine ⟨s.replied x.pid [ans.status.toVfs], ?_, replied_nfs .., fun h => absurd h hok, ?_⟩
    · have hdone := vfsReadDone_returns hp hname 0 ans.status.toVfs
      rw [if_pos (NfsStatus.toVfs_neg hok)] at hdone
      dsimp only
      rw [if_pos hok, Returns, hdone.bind_iff]
      exact removeRequest_returns rq
    · unfold SeqFile.perform
      dsimp only
      rw [if_neg (by simp [hread]), if_pos hok]
      exact h.replied _

/-- The answer to a write that has been asked at the offset. -/
theorem writeCb_returns {rq : NfsRequest} (h : HasFile s x f) (hfd : Names s x fd)
    (hpid : rq.pid = x.pid) (hwrite : writes f.mode = true) (data : List UInt8) (ans : RpcAnswer) :
    ∃ u, Returns (writeCb rq x.a fd (min data.length ioMaxBuffer) ans) s () (u.removed rq) ∧
      u.nfs = s.nfs ∧ Answered s x (f.perform ans.status (.write data)).2.words
        (f.perform ans.status (.write data)).1 u := by
  obtain ⟨p, hp, hname⟩ := hfd
  have hmay : ¬ writes f.mode = false := by simp [hwrite]
  have hlen : (data.take ioMaxBuffer).length = min data.length ioMaxBuffer := by
    rw [List.length_take, Nat.min_comm]
  unfold writeCb SeqFile.perform
  dsimp only
  rw [hpid, if_neg hmay]
  by_cases hok : ans.status = .ok
  · have hdone := vfsWriteDone_returns (s := s.withFiles (s.files.cpStats x.a ans.attr)) (x := x)
      hp hname (min data.length ioMaxBuffer : Nat) (min data.length ioMaxBuffer : Nat)
    have hadvanced := (h.cpStats ans.attr).advanced hp (min data.length ioMaxBuffer)
      (overwrite f.content f.offset (data.take ioMaxBuffer))
      [((min data.length ioMaxBuffer : Nat) : Int), sosWrite]
    rw [if_neg (by omega)] at hdone
    rw [if_neg (not_not_intro hok), if_neg (not_not_intro hok), hlen]
    refine ⟨_, ?_, ?_, hadvanced.of_start rfl fun _ => id⟩
    · rw [Returns, wp_bind, wp_modifyFiles]
      exact hdone.bind_iff.mpr (removeRequest_returns rq)
    · exact replied_nfs ..
  · refine ⟨s.replied x.pid [ans.status.toVfs], ?_, replied_nfs .., ?_⟩
    · have hdone := vfsWriteDone_returns hp hname 0 ans.status.toVfs
      rw [if_pos (NfsStatus.toVfs_neg hok)] at hdone
      rw [if_pos hok, Returns, hdone.bind_iff]
      exact removeRequest_returns rq
    · rw [if_pos hok]
      exact h.replied _

end Sos.Vfs
