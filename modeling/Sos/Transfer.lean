import Sos.Lib.Until
import Sos.Control.Replies
import Sos.Simulation.Lookup

/-!
# Moving a page to a file and back

The stages of `continueSwapout` and `continueSwapin`, driven by the answers of the root server. The
data goes through the pager's copy buffer in pieces of at most `IO_MAX_BUFFER` bytes; where they go
in the file is the position of the descriptor, which the root server keeps.

* `Disk` : a file and that position, and how calls are answered
* `transfer` : one answer and its handling
* `writes_page` : a swap-out puts a page into the file
* `reads_page` : a swap-in gets it from there
-/

namespace Sos

open Hoare AllRuns

variable {k k' k₀ : Kernel} {d d' d₀ : Disk} {ptr : SwapfilePtr} {fd : Int} {c : Calls}
variable {o : Nat} {buffer : Nat → UInt8} {rval : Int} {pos : Nat}

/-! ## The root server -/

/-- A file, and the position of the descriptor the pager has for it. The file has no end: a read
never meets it. -/
structure Disk where
  file : Nat → UInt8
  pos : Nat

/-- An answer to a call of the pager: its value, what is then in the pager's copy buffer, and the
disk. Files can be opened, writes succeed in full, and reads return one byte at least and no more
than was asked for. -/
inductive Disk.Answer (d : Disk) (k : Kernel) : VfsCall → Int → (Nat → UInt8) → Disk → Prop
  | opened {path : Path} {mode readers writers : Nat} {fd : Int} {buffer : Nat → UInt8} :
      0 ≤ fd → Answer d k (.open path mode readers writers) fd buffer { d with pos := 0 }
  | sought {fd : Int} {pos : Nat} {buffer : Nat → UInt8} :
      Answer d k (.lseek fd pos) 0 buffer { d with pos := pos }
  | read {fd : Int} {nbyte n : Nat} {buffer : Nat → UInt8} : 1 ≤ n → n ≤ nbyte →
      (∀ i < n, buffer i = d.file (d.pos + i)) →
      Answer d k (.read fd nbyte) n buffer { d with pos := d.pos + n }
  | written {fd : Int} {nbyte : Nat} {buffer : Nat → UInt8} :
      Answer d k (.write fd nbyte) nbyte buffer
        { file := blit d.file d.pos nbyte fun i =>
            k.copyInOutBuffer (pagerBuffer k.virtualPager + i)
          pos := d.pos + nbyte }
  | closed {fd : Int} {buffer : Nat → UInt8} : Answer d k (.close fd) 0 buffer d

/-- The call the pager waits for the answer to. -/
def Kernel.pending (k : Kernel) : Option VfsCall := k.calls.getLast?

/-- The call is answered and the pager handles the answer. -/
def transfer (s : Kernel × Disk) : Set (Option (Kernel × Disk)) :=
  { o | ∃ call rval buffer d' n, s.1.pending = some call ∧ s.2.Answer s.1 call rval buffer d' ∧
      o = match handle n (.vfsReply rval buffer) s.1 with
        | .ok _ k' => some (k', d')
        | .error _ _ => none }

theorem transfer_nonempty {call : VfsCall} (buffer : Nat → UInt8)
    (hcall : k.pending = some call) (ha : d.Answer k call rval buffer d') :
    (transfer (k, d)).Nonempty :=
  ⟨_, call, rval, buffer, d', 0, hcall, ha, rfl⟩

/-- It is enough to look at one kind of answer. -/
theorem transfer_outcome {call : VfsCall} {R : Kernel × Disk → Prop} (hcall : k.pending = some call)
    (h : ∀ rval buffer d' n, d.Answer k call rval buffer d' →
      Wp (handle n (.vfsReply rval buffer)) k (fun _ k' => R (k', d')) fun _ _ => False) :
    ∀ o ∈ transfer (k, d), ∃ t, o = some t ∧ R t := by
  rintro o ⟨call', rval, buffer, d', n, hcall', ha, rfl⟩
  obtain rfl : call = call' := Option.mem_unique hcall hcall'
  obtain ⟨_, k', hok, hr⟩ := (h rval buffer d' n ha).returns
  exact ⟨(k', d'), by dsimp only; rw [hok], hr⟩

/-! ## Swap files that are there -/

theorem fd?_eq_some_iff : k.fd? ptr = some fd ↔ ∃ sf, k.swapfile? ptr = some sf ∧ sf.fd = fd :=
  Option.map_eq_some_iff

theorem derefSwapfile_returns {sf : Swapfile} (h : k.swapfile? ptr = some sf) :
    Returns (derefSwapfile ptr) k sf k := by
  rw [Returns, wp_derefSwapfile, h]
  exact ⟨nofun, fun sf' hsf' => ⟨(Option.some.inj hsf').symm, rfl⟩⟩

theorem swapfileGetFd_returns (h : k.fd? ptr = some fd) (hfd : 0 ≤ fd) :
    Returns (swapfileGetFd ptr) k fd k := by
  obtain ⟨sf, hsf, rfl⟩ := fd?_eq_some_iff.mp h
  unfold swapfileGetFd
  rw [Returns, (derefSwapfile_returns hsf).bind_iff, wp_bind, wp_assert]
  refine ⟨fun _ => wp_pure.mpr ⟨rfl, rfl⟩, fun hnil => ?_⟩
  simp [vfsNilFile] at hnil
  omega

theorem swapfileSetFd_returns (h : k.fd? ptr = some vfsNilFile) (hfd : 0 ≤ fd) :
    Returns (swapfileSetFd ptr fd) k () (k.setSwapfileFd ptr fd) := by
  obtain ⟨sf, hsf, hnil⟩ := fd?_eq_some_iff.mp h
  unfold swapfileSetFd
  rw [Returns, (derefSwapfile_returns hsf).bind_iff, wp_bind, wp_assert]
  refine ⟨fun _ => ?_, fun h => by simp [hnil] at h⟩
  rw [wp_bind, wp_assert]
  refine ⟨fun _ => wp_modify.mpr ⟨rfl, rfl⟩, fun h => ?_⟩
  simp [vfsNilFile] at h
  omega

theorem swapfileClose_returns (h : k.fd? ptr = some fd) (hfd : 0 ≤ fd) :
    Returns (swapfileClose ptr) k ()
      (({ k with calls := k.calls ++ [.close fd] } : Kernel).setSwapfileFd ptr vfsNilFile) := by
  obtain ⟨sf, hsf, rfl⟩ := fd?_eq_some_iff.mp h
  unfold swapfileClose
  rw [Returns, (derefSwapfile_returns hsf).bind_iff, wp_bind, wp_assert]
  refine ⟨fun _ => ?_, fun hnil => ?_⟩
  · unfold vfsCall
    rw [wp_bind, wp_modify, wp_modify]
    exact ⟨rfl, rfl⟩
  · simp [vfsNilFile] at hnil
    omega

/-- `swapfile_open` on a file that is closed. -/
theorem swapfileOpen_returns (h : k.fd? ptr = some vfsNilFile) (rights : Nat) :
    ∃ sf, k.swapfile? ptr = some sf ∧ Returns (swapfileOpen ptr rights) k () { k with
      copyInOutBuffer := blit k.copyInOutBuffer (pagerBuffer k.virtualPager) maxFileName
        (fun i => sf.path.getD i 0)
      calls := k.calls ++ [.open sf.path (rights ||| fmNotrunc) 1 1] } := by
  obtain ⟨sf, hsf, hnil⟩ := fd?_eq_some_iff.mp h
  refine ⟨sf, hsf, ?_⟩
  unfold swapfileOpen
  rw [Returns, (derefSwapfile_returns hsf).bind_iff, wp_bind, wp_assert]
  refine ⟨fun _ => ?_, fun h => by simp [hnil] at h⟩
  unfold strncpyToBuffer vfsCall
  rw [wp_bind, wp_get, wp_bind, wp_modify, wp_modify]
  exact ⟨rfl, rfl⟩

theorem fd?_setSwapfileFd {d : Int} (fd : Int) (h : k.fd? ptr = some d) :
    (k.setSwapfileFd ptr fd).fd? ptr = some fd := by
  obtain ⟨sf, hsf, -⟩ := fd?_eq_some_iff.mp h
  cases ptr with
  | null => simp [Kernel.swapfile?] at hsf
  | default => rfl
  | elf f =>
    have hsf' : k.elffiles f = some sf := hsf
    show Option.map _ (Function.update k.elffiles f _ f) = _
    rw [Function.update_self, hsf']
    rfl

/-! ## To the file -/

variable {pr : PagerRequest} {rest : List Request}

/-- A swap-out has been started: `swapfile_open` has been called for the request at the head of the
queue. -/
structure OutBegun (pr : PagerRequest) (rest : List Request) (k : Kernel) : Prop where
  head : k.requests = .swapout pr :: rest
  stage : pr.stage = some .swapoutOpen
  size : pr.size = pageSize
  offset : pr.offset ≤ pageSize
  shut : k.fd? pr.sf = some vfsNilFile
  call : ∃ path mode readers writers, k.pending = some (.open path mode readers writers)

/-- The bytes of the frame that is written. -/
def Kernel.framed (k : Kernel) (a : Nat) : Nat → UInt8 := fun i => k.memory (a + i)

/-- The file with the first `n` bytes of the frame in their place. -/
def Disk.holding (d : Disk) (k : Kernel) (pr : PagerRequest) (n : Nat) : Nat → UInt8 :=
  blit d.file pr.diskAddr n (k.framed pr.addr)

/-- The request at the stage `SWAPOUT_WRITE`. -/
def PagerRequest.writing (pr : PagerRequest) (o : Nat) : PagerRequest :=
  { pr with offset := o, stage := some .swapoutWrite }

/-- What there is in the middle of a swap-out: the file is open, and `o` bytes have been handed
over. -/
structure OutUnderway (pr : PagerRequest) (rest : List Request) (k₀ : Kernel) (fd : Int) (o : Nat)
    (k : Kernel) : Prop where
  head : k.requests = .swapout (pr.writing o) :: rest
  le : o ≤ pageSize
  opened : 0 ≤ fd ∧ k.fd? pr.sf = some fd
  memory : k.memory = k₀.memory

/-- The call that hands over `n` bytes from `o` on. -/
structure OutWriting (pr : PagerRequest) (rest : List Request) (k₀ : Kernel) (fd : Int) (o n : Nat)
    (k : Kernel) : Prop extends OutUnderway pr rest k₀ fd (o + n) k where
  pos : 0 < n
  call : k.pending = some (.write fd n)
  buffer : ∀ i < n, k.copyInOutBuffer (pagerBuffer k.virtualPager + i) = k₀.framed pr.addr (o + i)

/-- All has been handed over, and the answer to the close leads to `finishSwapout`. -/
structure OutDone (pr : PagerRequest) (rest : List Request) (k₀ : Kernel) (k : Kernel) : Prop where
  head : k.requests =
    .swapout { pr with offset := pageSize, stage := some .swapoutClose } :: rest
  shut : k.fd? pr.sf = some vfsNilFile
  memory : k.memory = k₀.memory
  call : ∃ fd, k.pending = some (.close fd)

theorem pending_of_calls {l : List VfsCall} {v : VfsCall} (h : k.calls = l ++ [v]) :
    k.pending = some v := by
  unfold Kernel.pending
  rw [h, List.getLast?_concat]

theorem pending_setSwapfileFd : (k.setSwapfileFd ptr fd).pending = k.pending := by
  cases ptr <;> rfl

/-- The size of the next piece. -/
def piece (o : Nat) : Nat := min ioMaxBuffer (pageSize - o)

theorem piece_pos (h : o < pageSize) : 0 < piece o := by
  unfold piece ioMaxBuffer
  omega

theorem add_piece_le (h : o ≤ pageSize) : o + piece o ≤ pageSize := by
  unfold piece
  omega

theorem piece_le (o : Nat) : piece o ≤ copyBufsiz := by
  unfold piece ioMaxBuffer copyBufsiz
  omega

theorem min_eq_piece {size : Int} (hsize : size = pageSize) (h : o ≤ pageSize) :
    min (ioMaxBuffer : Int) (size - o) = piece o := by
  unfold piece
  omega

/-- The stage `SWAPOUT_WRITE`: the next piece is handed over, or the file is closed. -/
theorem OutUnderway.continueSwapout (h : OutUnderway pr rest k₀ fd o k)
    (hsize : pr.size = pageSize) (rval : Int) :
    Wp (continueSwapout c (pr.writing o) rval) k (fun _ k' =>
      o = pageSize ∧ OutDone pr rest k₀ k' ∨ ∃ n, OutWriting pr rest k₀ fd o n k')
      fun _ _ => False := by
  have hle := h.le
  obtain ⟨hfd, hopen⟩ := h.opened
  unfold PagerRequest.writing Sos.continueSwapout
  rw [wp_bind, wp_assert]
  refine ⟨fun _ => ?_, fun hno => absurd (of_decide_eq_false hno) ?_⟩
  swap
  · show ¬¬ (o : Int) ≤ pageSize
    omega
  dsimp only
  rw [wp_bind, wp_assert]
  refine ⟨fun _ => ?_, fun hno => absurd (of_decide_eq_false hno) ?_⟩
  swap
  · show ¬¬ (o : Int) ≤ pr.size
    omega
  rw [wp_ite]
  refine ⟨fun hend => ?_, fun hmore => ?_⟩
  · have hend : o = pageSize := by omega
    subst hend
    rw [(swapfileClose_returns hopen hfd).bind_iff]
    unfold setHead
    rw [wp_modify]
    refine .inl ⟨rfl, ?_, ?_, ?_, fd, ?_⟩
    · rw [setSwapfileFd_rest]
      simp [h.head]
    · exact fd?_setSwapfileFd (k := { k with calls := k.calls ++ [.close fd] }) _ hopen
    · rw [setSwapfileFd_rest]
      exact h.memory
    · show (Kernel.setSwapfileFd _ _ _).pending = _
      rw [pending_setSwapfileFd]
      exact pending_of_calls rfl
  · have hlt : o < pageSize := by omega
    rw [min_eq_piece hsize hle, wp_bind, wp_modify]
    have hget := swapfileGetFd_returns (k := { k with
      copyInOutBuffer := blit k.copyInOutBuffer (pagerBuffer k.virtualPager) (piece o) fun i =>
        k.memory (pr.addr + o + i) }) hopen hfd
    simp only [Int.toNat_natCast]
    rw [hget.bind_iff]
    unfold vfsCall setHead
    rw [wp_bind, wp_modify, wp_modify]
    refine .inr ⟨piece o, ⟨?_, add_piece_le hle, ⟨hfd, hopen⟩, h.memory⟩, piece_pos hlt, ?_, ?_⟩
    · simp [h.head, PagerRequest.writing]
    · exact pending_of_calls rfl
    · intro i hi
      refine (blit_apply (f := k.copyInOutBuffer) (g := fun j => k.memory (pr.addr + o + j))
        hi).trans ?_
      rw [Kernel.framed, h.memory, Nat.add_assoc]

/-- The answer to the open: the descriptor is entered and the file positioned. -/
theorem OutBegun.continueSwapout (h : OutBegun pr rest k) (hfd : 0 ≤ fd) :
    Wp (continueSwapout c pr fd) k (fun _ k' =>
      OutUnderway pr rest k fd 0 k' ∧ k'.pending = some (.lseek fd pr.diskAddr))
      fun _ _ => False := by
  unfold Sos.continueSwapout
  rw [wp_bind, wp_assert]
  refine ⟨fun _ => ?_, fun hno => absurd h.offset (of_decide_eq_false hno)⟩
  rw [h.stage]
  dsimp only
  have hopen := fd?_setSwapfileFd fd h.shut
  rw [(swapfileSetFd_returns h.shut hfd).bind_iff, (swapfileGetFd_returns hopen hfd).bind_iff]
  unfold vfsCall setHead
  rw [wp_bind, wp_modify, wp_modify]
  refine ⟨⟨?_, Nat.zero_le _, ⟨hfd, hopen⟩, ?_⟩, pending_of_calls rfl⟩
  · rw [setSwapfileFd_rest]
    simp [h.head, PagerRequest.writing]
  · rw [setSwapfileFd_rest]

/-- An answer leaves data in the pager's copy buffer, and is then dealt with. -/
theorem received_peek {r : Request} (hreq : k.requests = r :: rest) (buffer : Nat → UInt8) :
    Returns requestsPeek (k.received buffer) r (k.received buffer) := by
  rw [Returns, wp_requestsPeek]
  refine ⟨fun hnil => by simp [Kernel.received, hreq] at hnil, fun r' rest' hr => ⟨?_, rfl⟩⟩
  exact (List.cons.inj (hr.symm.trans hreq)).1

theorem vfsReply_swapout_iff {n : Nat} {Q : Unit → Kernel → Prop} {E : Fault → Kernel → Prop}
    (hreq : k.requests = .swapout pr :: rest) :
    Wp (handle n (.vfsReply rval buffer)) k Q E ↔
      Wp (continueSwapout (calls n) pr rval) (k.received buffer) Q E := by
  rw [vfsReply_iff, vfsHandler]
  exact (received_peek hreq buffer).bind_iff

/-! ### The whole chain -/

/-- A write goes to the page at `slot`. -/
def WritesWithin (slot : Nat) (s : Kernel × Disk) : Prop :=
  ∀ fd n, s.1.pending = some (.write fd n) → slot ≤ s.2.pos ∧ s.2.pos + n ≤ slot + pageSize

/-- The page is in the file, and nothing else in it has changed. -/
structure OutFinished (pr : PagerRequest) (rest : List Request) (k₀ : Kernel) (d₀ : Disk)
    (s : Kernel × Disk) : Prop extends OutDone pr rest k₀ s.1 where
  file : s.2.file = d₀.holding k₀ pr pageSize

/-- The states of a swap-out, with what is still to come. -/
inductive OutState (pr : PagerRequest) (rest : List Request) (k₀ : Kernel) (d₀ : Disk) :
    Nat → Kernel × Disk → Prop
  | opening : OutState pr rest k₀ d₀ (pageSize + 2) (k₀, d₀)
  | seeking {fd : Int} {k : Kernel} {d : Disk} : OutUnderway pr rest k₀ fd 0 k →
      k.pending = some (.lseek fd pr.diskAddr) → d.file = d₀.file →
      OutState pr rest k₀ d₀ (pageSize + 1) (k, d)
  | writing {fd : Int} {o n : Nat} {k : Kernel} {d : Disk} : OutWriting pr rest k₀ fd o n k →
      d.pos = pr.diskAddr + o → d.file = d₀.holding k₀ pr o →
      OutState pr rest k₀ d₀ (pageSize - o) (k, d)

theorem OutUnderway.received
    (h : OutUnderway pr rest k₀ fd o k) : OutUnderway pr rest k₀ fd o (k.received buffer) :=
  ⟨h.head, h.le, h.opened, h.memory⟩

theorem OutBegun.received (h : OutBegun pr rest k) :
    OutBegun pr rest (k.received buffer) :=
  ⟨h.head, h.stage, h.size, h.offset, h.shut, h.call⟩

/-- Where the bytes up to `o` are in the file, the stage `SWAPOUT_WRITE` leads on. -/
theorem OutUnderway.next {o m n : Nat}
    (h : OutUnderway pr rest k₀ fd o k) (hsize : pr.size = pageSize)
    (hpos : d.pos = pr.diskAddr + o) (hfile : d.file = d₀.holding k₀ pr o) (hm : pageSize - o < m) :
    Wp (handle n (.vfsReply rval buffer)) k (fun _ k' => OutFinished pr rest k₀ d₀ (k', d) ∨
      ∃ i < m, OutState pr rest k₀ d₀ i (k', d)) fun _ _ => False := by
  rw [vfsReply_swapout_iff h.head]
  refine (h.received.continueSwapout hsize rval).imp fun _ k' hk' => ?_
  rcases hk' with ⟨hend, hdone⟩ | ⟨n, hwrite⟩
  · exact .inl ⟨hdone, hend ▸ hfile⟩
  · exact .inr ⟨pageSize - o, hm, .writing hwrite hpos hfile⟩

theorem OutState.decreases (h : OutBegun pr rest k₀) {m : Nat} {s : Kernel × Disk}
    (hs : OutState pr rest k₀ d₀ m s) :
    Decreases transfer (WritesWithin pr.diskAddr) (OutFinished pr rest k₀ d₀)
      (OutState pr rest k₀ d₀) m s := by
  cases hs with
  | opening =>
    obtain ⟨path, mode, readers, writers, hcall⟩ := h.call
    refine ⟨fun fd n hw => ?_, ?_, transfer_outcome hcall fun rval buffer d' n ha => ?_⟩
    · simp [hcall] at hw
    · exact transfer_nonempty (fun _ => 0) hcall (.opened (le_refl 0))
    · cases ha with
      | opened hfd =>
        rw [vfsReply_swapout_iff h.head]
        refine (h.received.continueSwapout hfd).imp fun _ k' hk' =>
          .inr ⟨pageSize + 1, by omega, ?_⟩
        exact .seeking ⟨hk'.1.head, hk'.1.le, hk'.1.opened, hk'.1.memory⟩ hk'.2 rfl
  | @seeking fd k d hunder hcall hfile =>
    refine ⟨fun fd n hw => ?_, ?_, transfer_outcome hcall fun rval buffer d' n ha => ?_⟩
    · simp [hcall] at hw
    · exact transfer_nonempty (fun _ => 0) hcall .sought
    · cases ha with
      | sought =>
        refine hunder.next h.size rfl ?_ (by omega)
        rw [Disk.holding, blit_zero]
        exact hfile
  | @writing fd o n k d hwrite hpos hfile =>
    have hle := hwrite.le
    have hn := hwrite.pos
    refine ⟨fun fd' n' hw => ?_, ?_, transfer_outcome hwrite.call fun rval buffer d' n' ha => ?_⟩
    · rw [hwrite.call] at hw
      injection hw with hw
      injection hw with _ hn'
      dsimp only
      omega
    · exact transfer_nonempty (fun _ => 0) hwrite.call .written
    · cases ha with
      | written =>
        refine hwrite.next h.size ?_ ?_ (by omega)
        · dsimp only
          omega
        · dsimp only
          rw [hpos, hfile, blit_congr hwrite.buffer]
          exact blit_blit ..

/-- **A swap-out puts the page into the file.** However the calls are answered, the chain ends,
every write is within the page at `diskAddr`, and afterwards the frame's bytes are there. -/
theorem writes_page (h : OutBegun pr rest k₀) (d₀ : Disk) :
    AllUntil transfer (WritesWithin pr.diskAddr) (OutFinished pr rest k₀ d₀) (k₀, d₀) :=
  allUntil_of_decreases (fun _ _ => OutState.decreases h) _ _ .opening

/-! ## From the file -/

/-- A swap-in has been started: `swapfile_open` has been called for the request at the head of the
queue, whose page is at `pos` in the file. -/
structure InBegun (pr : PagerRequest) (rest : List Request) (pos : Nat) (k : Kernel) : Prop where
  head : k.requests = .swapin pr :: rest
  stage : pr.stage = some .swapinOpen
  size : pr.size = pageSize
  shut : k.fd? pr.sf = some vfsNilFile
  table : k.HasTable pr.pid (pageNo pr.addr)
  entry : (k.pool.pte pr.pid (pageNo pr.addr)).addr = pos
  call : ∃ path mode readers writers, k.pending = some (.open path mode readers writers)

/-- All a swap-in touches. -/
def Moved (k₀ k : Kernel) : Prop :=
  k = { k₀ with
    requests := k.requests, defaultSwapfile := k.defaultSwapfile, elffiles := k.elffiles
    copyInOutBuffer := k.copyInOutBuffer, memory := k.memory, calls := k.calls }

/-- The request at a later stage. -/
def PagerRequest.reading (pr : PagerRequest) (o : Nat) (stage : PrStage) : PagerRequest :=
  { pr with offset := o, stage := some stage }

/-- What there is in the middle of a swap-in: the file is open, and `o` bytes of it are in the
pinned frame. -/
structure InUnderway (pr : PagerRequest) (rest : List Request) (stage : PrStage) (k₀ : Kernel)
    (fd : Int) (o : Nat) (g : Nat → UInt8) (k : Kernel) : Prop where
  head : k.requests = .swapin (pr.reading o stage) :: rest
  lt : o < pageSize
  opened : 0 ≤ fd ∧ k.fd? pr.sf = some fd
  moved : Moved k₀ k
  memory : k.memory = blit k₀.memory k₀.pinnedFrame o g

/-- The page is in the pinned frame, and the answer to the close leads to `swapinFinish`. -/
structure InDone (pr : PagerRequest) (rest : List Request) (k₀ : Kernel) (g : Nat → UInt8)
    (k : Kernel) : Prop where
  head : k.requests = .swapin (pr.reading pageSize .swapinClose) :: rest
  shut : k.fd? pr.sf = some vfsNilFile
  moved : Moved k₀ k
  memory : k.memory = blit k₀.memory k₀.pinnedFrame pageSize g
  call : ∃ fd, k.pending = some (.close fd)

theorem readRest_returns (stage : PrStage) (hsize : pr.size = pageSize)
    (h : o ≤ pageSize) (hopen : k.fd? pr.sf = some fd) (hfd : 0 ≤ fd) :
    Returns (readRest (pr.reading o stage)) k () { k with
      calls := k.calls ++ [.read fd (piece o)] } := by
  unfold readRest PagerRequest.reading vfsCall
  rw [Returns, (swapfileGetFd_returns hopen hfd).bind_iff, wp_modify]
  dsimp only
  rw [min_eq_piece hsize h]
  exact ⟨rfl, rfl⟩

theorem vfsReply_swapin_iff {n : Nat} {Q : Unit → Kernel → Prop} {E : Fault → Kernel → Prop}
    (hreq : k.requests = .swapin pr :: rest) :
    Wp (handle n (.vfsReply rval buffer)) k Q E ↔
      Wp (continueSwapin (calls n) pr rval) (k.received buffer) Q E := by
  rw [vfsReply_iff, vfsHandler]
  exact (received_peek hreq buffer).bind_iff

/-- The answer to the open. -/
theorem InBegun.continueSwapin (h : InBegun pr rest pos k) (hfd : 0 ≤ fd) (g : Nat → UInt8) :
    Wp (continueSwapin c pr fd) k (fun _ k' => InUnderway pr rest .swapinLseek k fd 0 g k' ∧
      k'.pending = some (.lseek fd pos)) fun _ _ => False := by
  unfold Sos.continueSwapin
  rw [h.stage]
  dsimp only
  have hopen := fd?_setSwapfileFd fd h.shut
  have htable : (k.setSwapfileFd pr.sf fd).HasTable pr.pid (pageNo (pageAlign pr.addr)) := by
    rw [setSwapfileFd_rest, pageNo_pageAlign]
    exact h.table
  have hentry : ((k.setSwapfileFd pr.sf fd).pool.pte pr.pid (pageNo (pageAlign pr.addr))).addr =
      pos := by
    rw [setSwapfileFd_rest, pageNo_pageAlign]
    exact h.entry
  rw [(swapfileSetFd_returns h.shut hfd).bind_iff, wp_bind, wp_lookupEntry_of_hasTable htable,
    (swapfileGetFd_returns hopen hfd).bind_iff, hentry]
  unfold vfsCall setHead
  rw [wp_bind, wp_modify, wp_modify]
  refine ⟨⟨?_, by decide, ⟨hfd, hopen⟩, ?_, ?_⟩, pending_of_calls rfl⟩
  · rw [setSwapfileFd_rest]
    simp [h.head, PagerRequest.reading]
  · rw [Moved, setSwapfileFd_rest]
  · rw [setSwapfileFd_rest, blit_zero]

/-- The answer to the seek: the first piece is asked for. -/
theorem InUnderway.continueSwapin_lseek {g : Nat → UInt8} (hsize : pr.size = pageSize)
    (h : InUnderway pr rest .swapinLseek k₀ fd 0 g k) (rval : Int) :
    Wp (continueSwapin c (pr.reading 0 .swapinLseek) rval) k (fun _ k' =>
      InUnderway pr rest .swapinRead k₀ fd 0 g k' ∧ k'.pending = some (.read fd (piece 0)))
      fun _ _ => False := by
  obtain ⟨hfd, hopen⟩ := h.opened
  have hread := readRest_returns (o := 0) .swapinLseek hsize (Nat.zero_le _) hopen hfd
  unfold Sos.continueSwapin
  dsimp only [PagerRequest.reading] at hread ⊢
  rw [hread.bind_iff]
  unfold setHead
  rw [wp_modify]
  refine ⟨⟨?_, h.lt, ⟨hfd, hopen⟩, ?_, h.memory⟩, pending_of_calls rfl⟩
  · simp [h.head, PagerRequest.reading]
  · rw [Moved, h.moved]

/-- The stage `SWAPIN_READ`: `n` bytes have come, and the rest is asked for or the file closed. -/
theorem InUnderway.continueSwapin_read {o n : Nat} {g : Nat → UInt8} (hsize : pr.size = pageSize)
    (h : InUnderway pr rest .swapinRead k₀ fd o g k) (hn : 1 ≤ n) (hle : n ≤ piece o)
    (hbuf : ∀ i < n, k.copyInOutBuffer (pagerBuffer k.virtualPager + i) = g (o + i)) :
    Wp (continueSwapin c (pr.reading o .swapinRead) n) k (fun _ k' => InDone pr rest k₀ g k' ∨
      InUnderway pr rest .swapinRead k₀ fd (o + n) g k' ∧
        k'.pending = some (.read fd (piece (o + n)))) fun _ _ => False := by
  have hlt := h.lt
  have hpiece := add_piece_le (Nat.le_of_lt hlt)
  obtain ⟨hfd, hopen⟩ := h.opened
  have hpin : k.pinnedFrame = k₀.pinnedFrame := by rw [h.moved]
  have hmem : blit k.memory (k.pinnedFrame + o) n
      (fun i => k.copyInOutBuffer (pagerBuffer k.virtualPager + i)) =
      blit k₀.memory k₀.pinnedFrame (o + n) g := by
    rw [blit_congr hbuf, h.memory, hpin, blit_blit]
  unfold PagerRequest.reading Sos.continueSwapin
  dsimp only
  rw [wp_bind, wp_assert]
  refine ⟨fun _ => ?_, fun hno => absurd (of_decide_eq_false hno) (by omega)⟩
  rw [wp_bind, wp_assert]
  refine ⟨fun _ => ?_, fun hno => absurd (of_decide_eq_false hno) (by omega)⟩
  rw [wp_bind]
  refine modify_eq.imp fun _ k₁ h₁ => ?_
  rw [Int.toNat_natCast, Int.toNat_natCast, hmem] at h₁
  unfold setHead
  rw [wp_bind]
  refine modify_eq.imp fun _ k₂ h₂ => ?_
  have hopen₂ : k₂.fd? pr.sf = some fd := by
    rw [h₂, h₁]
    exact hopen
  have hreq₂ : k₂.requests.tail = rest := by
    rw [h₂, h₁]
    simp [h.head]
  have hmoved₂ : Moved k₀ k₂ := by
    rw [h₂, h₁, Moved, h.moved]
  have hmem₂ : k₂.memory = blit k₀.memory k₀.pinnedFrame (o + n) g := by rw [h₂, h₁]
  rw [wp_bind, wp_assert]
  refine ⟨fun _ => ?_, fun hno => absurd (of_decide_eq_false hno) (by omega)⟩
  rw [wp_ite]
  refine ⟨fun hend => ?_, fun hmore => ?_⟩
  · have hend : o + n = pageSize := by omega
    rw [(swapfileClose_returns hopen₂ hfd).bind_iff, wp_modify]
    refine .inl ⟨?_, ?_, ?_, ?_, fd, ?_⟩
    · rw [setSwapfileFd_rest, hreq₂, ← hend]
      simp [PagerRequest.reading]
    · exact fd?_setSwapfileFd (k := { k₂ with calls := k₂.calls ++ [.close fd] }) _ hopen₂
    · rw [Moved, setSwapfileFd_rest]
      rw [hmoved₂]
    · rw [setSwapfileFd_rest, ← hend]
      exact hmem₂
    · show (Kernel.setSwapfileFd _ _ _).pending = _
      rw [pending_setSwapfileFd]
      exact pending_of_calls rfl
  · have hread := readRest_returns (o := o + n) .swapinRead hsize (by omega) hopen₂ hfd
    have hsum : ((o + n : Nat) : Int) = o + n := by omega
    unfold PagerRequest.reading at hread
    rw [hsum] at hread
    rw [hread.wp_iff]
    refine .inr ⟨⟨?_, by omega, ⟨hfd, hopen₂⟩, ?_, hmem₂⟩, pending_of_calls rfl⟩
    · rw [h₂, h₁]
      simp [h.head, PagerRequest.reading]
    · rw [Moved, hmoved₂]

/-! ### The whole chain -/

/-- The bytes of the file from `pos` on. -/
def Disk.bytes (d : Disk) (pos : Nat) : Nat → UInt8 := fun i => d.file (pos + i)

/-- The page is in the pinned frame, and the file has not changed. -/
structure InFinished (pr : PagerRequest) (rest : List Request) (pos : Nat) (k₀ : Kernel) (d₀ : Disk)
    (s : Kernel × Disk) : Prop extends InDone pr rest k₀ (d₀.bytes pos) s.1 where
  file : s.2.file = d₀.file

/-- The states of a swap-in, with what is still to come. -/
inductive InState (pr : PagerRequest) (rest : List Request) (pos : Nat) (k₀ : Kernel) (d₀ : Disk) :
    Nat → Kernel × Disk → Prop
  | opening : InState pr rest pos k₀ d₀ (pageSize + 2) (k₀, d₀)
  | seeking {fd : Int} {k : Kernel} {d : Disk} :
      InUnderway pr rest .swapinLseek k₀ fd 0 (d₀.bytes pos) k → k.pending = some (.lseek fd pos) →
      d.file = d₀.file → InState pr rest pos k₀ d₀ (pageSize + 1) (k, d)
  | reading {fd : Int} {o : Nat} {k : Kernel} {d : Disk} :
      InUnderway pr rest .swapinRead k₀ fd o (d₀.bytes pos) k →
      k.pending = some (.read fd (piece o)) → d.pos = pos + o → d.file = d₀.file →
      InState pr rest pos k₀ d₀ (pageSize - o) (k, d)

theorem InUnderway.received {stage : PrStage} {g buffer : Nat → UInt8}
    (h : InUnderway pr rest stage k₀ fd o g k) :
    InUnderway pr rest stage k₀ fd o g (k.received buffer) := by
  refine ⟨h.head, h.lt, h.opened, ?_, h.memory⟩
  unfold Kernel.received
  rw [Moved, h.moved]

theorem InBegun.received (h : InBegun pr rest pos k) :
    InBegun pr rest pos (k.received buffer) :=
  ⟨h.head, h.stage, h.size, h.shut, h.table, h.entry, h.call⟩

/-- The request at the head is at the stage from which `swapinFinish` is called. -/
def Kernel.AtSwapinFinish (k : Kernel) : Prop :=
  ∃ pr rest, k.requests = .swapin pr :: rest ∧ pr.stage = some .swapinClose

theorem not_atSwapinFinish (hreq : k.requests = .swapin pr :: rest)
    (hstage : pr.stage ≠ some .swapinClose) : ¬ k.AtSwapinFinish := by
  rintro ⟨pr', rest', hreq', hclose⟩
  rw [hreq] at hreq'
  injection hreq' with hpr
  injection hpr with hpr
  exact hstage (hpr ▸ hclose)

theorem InState.decreases (h : InBegun pr rest pos k₀) {m : Nat} {s : Kernel × Disk}
    (hs : InState pr rest pos k₀ d₀ m s) :
    Decreases transfer (fun s => WritesWithin pos s ∧ ¬ s.1.AtSwapinFinish)
      (InFinished pr rest pos k₀ d₀) (InState pr rest pos k₀ d₀) m s := by
  cases hs with
  | opening =>
    obtain ⟨path, mode, readers, writers, hcall⟩ := h.call
    refine ⟨⟨fun fd n hw => ?_, not_atSwapinFinish h.head (by simp [h.stage])⟩, ?_,
      transfer_outcome hcall fun rval buffer d' n ha => ?_⟩
    · simp [hcall] at hw
    · exact transfer_nonempty (fun _ => 0) hcall (.opened (le_refl 0))
    · cases ha with
      | opened hfd =>
        rw [vfsReply_swapin_iff h.head]
        refine (h.received.continueSwapin hfd (d₀.bytes pos)).imp fun _ k' hk' => ?_
        refine .inr ⟨pageSize + 1, by omega, ?_⟩
        exact .seeking ⟨hk'.1.head, hk'.1.lt, hk'.1.opened, by rw [Moved, hk'.1.moved]; rfl,
          hk'.1.memory⟩ hk'.2 rfl
  | @seeking fd k d hunder hcall hfile =>
    refine ⟨⟨fun fd n hw => ?_, not_atSwapinFinish hunder.head (by simp [PagerRequest.reading])⟩,
      ?_, transfer_outcome hcall fun rval buffer d' n ha => ?_⟩
    · simp [hcall] at hw
    · exact transfer_nonempty (fun _ => 0) hcall .sought
    · cases ha with
      | sought =>
        rw [vfsReply_swapin_iff hunder.head]
        refine (hunder.received.continueSwapin_lseek h.size 0).imp fun _ k' hk' => ?_
        exact .inr ⟨pageSize, by omega, .reading hk'.1 hk'.2 rfl hfile⟩
  | @reading fd o k d hunder hcall hpos hfile =>
    have hlt := hunder.lt
    refine ⟨⟨fun fd' n' hw => ?_, not_atSwapinFinish hunder.head (by simp [PagerRequest.reading])⟩,
      ?_, transfer_outcome hcall fun rval buffer d' n' ha => ?_⟩
    · simp [hcall] at hw
    · exact transfer_nonempty _ hcall (.read (le_refl 1) (piece_pos hlt) fun i _ => rfl)
    · cases ha with
      | @read _ _ n _ hn hle hbytes =>
        have hbuf : ∀ i < n, (k.received buffer).copyInOutBuffer
            (pagerBuffer (k.received buffer).virtualPager + i) = d₀.bytes pos (o + i) := by
          intro i hi
          have hsize : i < copyBufsiz := by
            have := piece_le o
            omega
          refine (blit_apply (f := k.copyInOutBuffer) (g := buffer) hsize).trans ?_
          rw [hbytes i hi, hfile, hpos, Disk.bytes, Nat.add_assoc]
        rw [vfsReply_swapin_iff hunder.head]
        refine (hunder.received.continueSwapin_read h.size hn hle hbuf).imp fun _ k' hk' => ?_
        rcases hk' with hdone | ⟨hnext, hcall'⟩
        · exact .inl ⟨hdone, hfile⟩
        · refine .inr ⟨pageSize - (o + n), by omega, .reading hnext hcall' ?_ hfile⟩
          dsimp only
          omega

/-- **A swap-in gets the page from the file.** However the calls are answered, in pieces of whatever
size, the chain ends, and then the bytes at `pos` in the file are in the pinned frame and no other
memory has changed. -/
theorem reads_page (h : InBegun pr rest pos k₀) (d₀ : Disk) :
    AllUntil transfer (fun s => WritesWithin pos s ∧ ¬ s.1.AtSwapinFinish)
      (InFinished pr rest pos k₀ d₀) (k₀, d₀) :=
  allUntil_of_decreases (fun _ _ => InState.decreases h) _ _ .opening

end Sos
