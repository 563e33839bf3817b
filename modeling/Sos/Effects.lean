import Sos.Handler

/-!
# Effects

Most functions of the pager touch only a part of the state. Which part is said once, here, for any
relation between states that allows the changes: `Messaging` relations allow messages and the use
of the buffers, `Paging` relations allow frames, slots and page tables to change. A function made
of such changes keeps every relation of the kind.
-/

namespace Sos

open Hoare

/-- The descriptor a call is about. -/
def VfsCall.fd? : VfsCall → Option Int
  | .close fd | .lseek fd _ | .read fd _ | .write fd _ => some fd
  | _ => none

/-- The assertions of `continueSwapin`, `continueSwapout`, `continueElfload` and
`swapfile_set_fd`. -/
def Fault.onReply : Fault → Bool
  | .assertion .continueSwapinRead | .assertion .continueSwapinOffset
  | .assertion .continueSwapinSize | .assertion .continueSwapinStage
  | .assertion .continueSwapoutOffset | .assertion .continueSwapoutSize
  | .assertion .continueSwapoutStage | .assertion .continueElfloadStat
  | .assertion .continueElfloadChild | .assertion .continueElfloadStage
  | .assertion .swapfileSetFdClosed | .assertion .swapfileSetFdNil => true
  | _ => false

/-- The assertions on `requestActive` in `queueRequest`, `dequeueRequest` and `startRequest`. -/
def Fault.onQueue : Fault → Bool
  | .assertion .queueRequestIdle | .assertion .queueRequestActive
  | .assertion .dequeueRequestActive | .assertion .startRequestActive => true
  | _ => false

/-- The assertion of `deleteAllocList` that there is something to take. -/
def Fault.onEmpty : Fault → Bool
  | .assertion .deleteAllocListEmpty => true
  | _ => false

/-- The assertions that are looked at one by one. -/
def Fault.watched (f : Fault) : Bool := f.onReply || f.onQueue || f.onEmpty

theorem Fault.of_not_watched {f : Fault} (h : f.watched = false) :
    f.onReply = false ∧ f.onQueue = false ∧ f.onEmpty = false := by
  simpa [Fault.watched, and_assoc] using h

/-- A preorder on states, and faults that are none of the assertions watched. -/
structure Closed (R : Kernel → Kernel → Prop) (F : Fault → Prop) : Prop where
  refl : ∀ k, R k k
  trans : ∀ {k k' k''}, R k k' → R k' k'' → R k k''
  fault : ∀ f : Fault, f.watched = false → F f

variable {R : Kernel → Kernel → Prop} {F : Fault → Prop}

section Closed

variable (h : Closed R F)
include h

theorem keeps_assert {c : Bool} {site : Site} (hw : (Fault.assertion site).watched = false) :
    Keeps R F (assert c site) := by
  unfold assert
  exact .ite (.pure h.refl _) (.throw h.refl (h.fault _ hw))

theorem keeps_failIf {c : Prop} [Decidable c] {e : Fault} (hw : e.watched = false) :
    Keeps R F (failIf c e) := by
  unfold failIf
  exact .ite (.throw h.refl (h.fault _ hw)) (.pure h.refl _)

theorem keeps_derefProcess (pid : Pid) : Keeps R F (derefProcess pid) := by
  unfold derefProcess
  refine .get fun k => ?_
  split
  · exact .throw h.refl (h.fault _ rfl)
  · exact .throw h.refl (h.fault _ rfl)
  · exact .pure h.refl _

theorem keeps_derefSwapfile (ptr : SwapfilePtr) : Keeps R F (derefSwapfile ptr) := by
  unfold derefSwapfile
  refine .get fun k => ?_
  split
  · exact .throw h.refl (h.fault _ rfl)
  · exact .pure h.refl _

theorem keeps_swapfileGetFd (ptr : SwapfilePtr) : Keeps R F (swapfileGetFd ptr) := by
  unfold swapfileGetFd
  refine .bind h.trans (keeps_derefSwapfile h ptr) fun sf => ?_
  exact .bind h.trans (keeps_assert h rfl) fun _ => .pure h.refl _

theorem keeps_processGetTid (pid : Pid) : Keeps R F (processGetTid pid) := by
  unfold processGetTid
  refine .get fun k => ?_
  split
  · exact .pure h.refl _
  · exact .throw h.refl (h.fault _ rfl)
  · exact .pure h.refl _

theorem keeps_requestsPeek : Keeps R F requestsPeek := by
  unfold requestsPeek
  refine .get fun k => ?_
  split
  · exact .throw h.refl (h.fault _ rfl)
  · exact .pure h.refl _

theorem keeps_allocPagerRequest (pid : Pid) (addr rights : Nat) (sf : SwapfilePtr)
    (callback : Callback) : Keeps R F (allocPagerRequest pid addr rights sf callback) :=
  .bind h.trans (keeps_derefProcess h pid) fun _ => .pure h.refl _

end Closed

/-! ## Messages and buffers -/

/-- A relation that allows messages, the use of the buffers, and changes of how a process waits. -/
structure Messaging (R : Kernel → Kernel → Prop) (F : Fault → Prop) : Prop extends Closed R F where
  buffers : ∀ k data buf mem, R k { k with
    copyInOutData := data, copyInOutBuffer := buf, memory := mem }
  calls : ∀ k (l : List VfsCall), (∀ c ∈ l, c.fd? = none) → R k { k with calls := k.calls ++ l }
  reply : ∀ k rs, R k { k with replies := rs }
  pcb : ∀ k pid (g : Process → Process), (∀ p, (g p).pagetable = p.pagetable) →
    (∀ p, (g p).regions = p.regions) → (∀ p, (g p).psType = p.psType ∧ (g p).inc = p.inc) →
    R k (k.updProcess pid g)

section Messaging

variable (h : Messaging R F)
include h

theorem keeps_buffers {data : Kernel → Pid → Nat} {buf mem : Kernel → Nat → UInt8} :
    Keeps R F (modify fun k => { k with
      copyInOutData := data k, copyInOutBuffer := buf k, memory := mem k }) :=
  .modify fun k => h.buffers k _ _ _

theorem keeps_vfsCall {c : VfsCall} (hc : c.fd? = none) : Keeps R F (vfsCall c) :=
  .modify fun k => h.calls k [c] (by simpa using hc)

theorem keeps_strncpyToBuffer (tid : Pid) (path : Path) : Keeps R F (strncpyToBuffer tid path) :=
  .modify fun k => h.buffers k _ _ _

theorem keeps_syscallReplyV (tid : Pid) (words : List Int) :
    Keeps R F (syscallReplyV tid words) := by
  unfold syscallReplyV
  refine .get fun k => ?_
  split
  · exact .pure h.refl _
  · exact .throw h.refl (h.fault _ rfl)
  · refine .modify fun k => ?_
    unfold Kernel.reply
    split
    · exact h.refl k
    · exact h.reply k _

theorem keeps_syscallReply (tid : Pid) (rval : Int) : Keeps R F (syscallReply tid rval) :=
  keeps_syscallReplyV h tid [rval]

theorem keeps_swapfileOpen (ptr : SwapfilePtr) (rights : Nat) :
    Keeps R F (swapfileOpen ptr rights) := by
  unfold swapfileOpen
  refine .bind h.trans (keeps_derefSwapfile h.toClosed ptr) fun sf => ?_
  refine .bind h.trans (keeps_assert h.toClosed rfl) fun _ => .get fun k => ?_
  exact .bind h.trans (keeps_strncpyToBuffer h _ _) fun _ => keeps_vfsCall h rfl

theorem keeps_wakeOne (wakeFor : Int) (wakeFrom i : Pid) :
    Keeps R F (wakeOne wakeFor wakeFrom i) := by
  unfold wakeOne
  refine .get fun k => ?_
  split
  · refine .ite ?_ (.pure h.refl _)
    refine .bind h.trans (.modify fun k => ?_) fun _ => keeps_syscallReply h _ _
    exact h.pcb k i _ (fun _ => rfl) (fun _ => rfl) (fun _ => ⟨rfl, rfl⟩)
  · exact .pure h.refl _

theorem keeps_processWakeAll (pid : Pid) : Keeps R F (processWakeAll pid) := by
  have hwake : ∀ wakeFor, Keeps R F (wakeAll wakeFor pid) := fun wakeFor =>
    .get fun k => .forM h.refl h.trans (keeps_wakeOne h wakeFor pid) _
  unfold processWakeAll
  exact .bind h.trans (hwake _) fun _ => hwake _

theorem keeps_pagerContinue (pr : PagerRequest) : Keeps R F (pagerContinue pr) :=
  .bind h.trans (keeps_processGetTid h.toClosed _) fun _ => keeps_syscallReplyV h _ _

theorem keeps_startElfload : Keeps R F startElfload := by
  unfold startElfload
  refine .bind h.trans (keeps_requestsPeek h.toClosed) fun r => ?_
  split
  · exact .get fun k => .bind h.trans (keeps_strncpyToBuffer h _ _) fun _ => keeps_vfsCall h rfl
  · exact .throw h.refl (h.fault _ rfl)

theorem keeps_zeroTail (r : Region) (addr : Nat) : Keeps R F (zeroTail r addr) := by
  unfold zeroTail
  refine .ite ?_ (.pure h.refl _)
  exact .bind h.trans (keeps_assert h.toClosed rfl) fun _ => .modify fun k => h.buffers k _ _ _

theorem keeps_openStdFds (pid : Pid) (fdout fderr : Option Path) :
    Keeps R F (openStdFds pid fdout fderr) := by
  have hopen : ∀ f s m, Keeps R F (openStdFd pid f s m) := fun _ _ _ =>
    .bind h.trans (keeps_strncpyToBuffer h _ _) fun _ => keeps_vfsCall h rfl
  unfold openStdFds
  refine .bind h.trans (hopen _ _ _) fun _ => ?_
  split
  · exact keeps_vfsCall h rfl
  · exact .ite (keeps_vfsCall h rfl) (hopen _ _ _)
  · exact .throw h.refl (h.fault _ rfl)

end Messaging

/-! ## Frames, slots and page tables -/

/-- Only frames, slots, memory and mappings differ. -/
def Plain (k k' : Kernel) : Prop :=
  k' = { k with
    free := k'.free, totalInUse := k'.totalInUse, exhausted := k'.exhausted
    unbacked := k'.unbacked, allocLimit := k'.allocLimit, alloced := k'.alloced
    swapped := k'.swapped, pinnedFrame := k'.pinnedFrame, memory := k'.memory, mmu := k'.mmu
    defaultSwapfile := { k'.defaultSwapfile with
      path := k.defaultSwapfile.path, fd := k.defaultSwapfile.fd } }

/-- A relation that allows frames and slots to change hands and page tables to change. -/
structure Paging (R : Kernel → Kernel → Prop) (F : Fault → Prop) : Prop extends Closed R F where
  plain : ∀ {k k'}, Plain k k' → R k k'
  pages : ∀ k pid (g : Process → Process),
    (∀ p, g p = { p with pagetable := (g p).pagetable, size := (g p).size }) →
    R k (k.updProcess pid g)

section Paging

variable (h : Paging R F)
include h

theorem keeps_frameAlloc : Keeps R F frameAlloc :=
  fun _ => wp_frameAlloc.mpr ⟨fun _ => h.plain rfl, fun _ _ _ _ => h.plain rfl⟩

theorem keeps_frameFree (f : Nat) : Keeps R F (frameFree f) := .modify fun _ => h.plain rfl

theorem keeps_pagetableLookup (pt : Pagetable) (addr : Nat) :
    Keeps R F (pagetableLookup pt addr) := by
  unfold pagetableLookup
  split
  · exact .pure h.refl _
  · refine .bind h.trans (keeps_frameAlloc h) fun f => ?_
    exact .bind h.trans (keeps_failIf h.toClosed rfl) fun _ => .pure h.refl _

theorem keeps_setRegionOnElf (pt : Pagetable) (r : Region) (addr : Nat) :
    Keeps R F (setRegionOnElf pt r addr) := by
  have hloop : ∀ n size pt, Keeps R F (setRegionOnElfLoop r addr n size pt) := by
    intro n
    induction n with
    | zero => exact fun _ _ => .throw h.refl (h.fault _ rfl)
    | succ n ih =>
      intro size pt
      refine .ite ?_ (.pure h.refl _)
      exact .bind h.trans (keeps_pagetableLookup h _ _) fun _ => ih _ _
  exact .bind h.trans (keeps_assert h.toClosed rfl) fun _ => hloop _ _ _

theorem keeps_lookupEntry (pid : Pid) (addr : Nat) : Keeps R F (lookupEntry pid addr) := by
  unfold lookupEntry
  refine .bind h.trans (keeps_derefProcess h.toClosed pid) fun p => ?_
  refine .bind h.trans (keeps_pagetableLookup h _ _) fun pt => ?_
  exact .bind h.trans (.modify fun k => h.pages k pid _ fun _ => rfl) fun _ => .pure h.refl _

theorem keeps_setEntry (pid : Pid) (addr : Nat) (e : Pte) : Keeps R F (setEntry pid addr e) :=
  .modify fun k => h.pages k pid _ fun _ => rfl

theorem keeps_mapPage (pid : Pid) (virt phys : Nat) : Keeps R F (mapPage pid virt phys) :=
  .bind h.trans (keeps_assert h.toClosed rfl) fun _ => .modify fun _ => h.plain rfl

theorem keeps_unmapPage (pid : Pid) (virt : Nat) : Keeps R F (unmapPage pid virt) :=
  .bind h.trans (keeps_assert h.toClosed rfl) fun _ => .modify fun _ => h.plain rfl

theorem keeps_prepareData (pid : Pid) (vaddr : Nat) : Keeps R F (prepareData pid vaddr) :=
  .bind h.trans (keeps_assert h.toClosed rfl) fun _ => .discard (keeps_lookupEntry h _ _)

theorem keeps_enterFrame (pr : PagerRequest) (frame : Nat) : Keeps R F (enterFrame pr frame) := by
  unfold enterFrame
  refine .bind h.trans (keeps_setEntry h _ _ _) fun _ => ?_
  exact .bind h.trans (keeps_mapPage h _ _ _) fun _ => .pure h.refl _

theorem keeps_pagerFrameFree (owner : Option Pid) (frame : Nat) :
    Keeps R F (pagerFrameFree owner frame) := by
  unfold pagerFrameFree
  refine .bind h.trans (keeps_assert h.toClosed rfl) fun _ => ?_
  refine .bind h.trans (keeps_frameFree h _) fun _ => ?_
  refine .bind h.trans (.modify fun _ => h.plain rfl) fun _ => ?_
  split
  · exact .pure h.refl _
  · refine .get fun k => ?_
    split
    · exact .pure h.refl _
    · exact .throw h.refl (h.fault _ rfl)
    · exact .modify fun k => h.pages k _ _ fun _ => rfl

theorem keeps_pagerFrameAlloc (pid : Pid) (page : Nat) : Keeps R F (pagerFrameAlloc pid page) := by
  unfold pagerFrameAlloc
  refine .get fun k => .bind h.trans (keeps_assert h.toClosed rfl) fun _ => ?_
  refine .ite (.pure h.refl _) (.bind h.trans (keeps_frameAlloc h) fun frame => ?_)
  refine .bind h.trans (.modify fun k => ?_) fun _ => .pure h.refl _
  have hplain : Plain k { k with
      alloced := k.alloced ++ [(pid, page)]
      allocLimit := k.allocLimit - 1
      unbacked := k.unbacked || frame == 0 } := rfl
  exact h.trans (h.plain hplain) (h.pages _ pid _ fun _ => rfl)

theorem keeps_deleteAllocListLoop : ∀ n, Keeps R F (deleteAllocListLoop n)
  | 0 => .throw h.refl (h.fault _ rfl)
  | n + 1 => by
    unfold deleteAllocListLoop
    refine .get fun k => ?_
    split
    · exact .throw h.refl (h.fault _ rfl)
    · next found rest _ =>
      refine .bind h.trans (.modify fun _ => h.plain rfl) fun _ => .get fun k => ?_
      refine .bind h.trans (keeps_assert h.toClosed rfl) fun _ => ?_
      refine .bind h.trans (keeps_lookupEntry h _ _) fun entry => .ite (.pure h.refl _) ?_
      refine .bind h.trans (keeps_setEntry h _ _ _) fun _ => ?_
      refine .bind h.trans (keeps_unmapPage h _ _) fun _ => ?_
      exact .bind h.trans (.modify fun _ => h.plain rfl) fun _ => keeps_deleteAllocListLoop n

theorem keeps_deleteAllocList (hF : F (.assertion .deleteAllocListEmpty)) :
    Keeps R F deleteAllocList := by
  unfold deleteAllocList assert
  refine .get fun _ => .bind h.trans (.ite (.pure h.refl _) (.throw h.refl hF)) fun _ => ?_
  exact keeps_deleteAllocListLoop h _

theorem keeps_pagerSwapslotAlloc (pid : Pid) : Keeps R F (pagerSwapslotAlloc pid) := by
  have hslot : Keeps R F swapslotAlloc := by
    intro k
    unfold swapslotAlloc
    rw [wp_bind, wp_get]
    refine (wp_bind.mpr ?_)
    rw [wp_assert]
    refine ⟨fun _ => ?_, fun _ => ⟨h.refl k, h.fault _ rfl⟩⟩
    rw [wp_bind, wp_failIf]
    refine ⟨fun _ => ⟨h.refl k, h.fault _ rfl⟩, fun _ => ?_⟩
    exact wp_bind.mpr (wp_modify.mpr (wp_pure.mpr (h.plain rfl)))
  unfold pagerSwapslotAlloc
  refine .bind h.trans hslot fun diskAddr => .ite (.pure h.refl _) ?_
  exact .bind h.trans (.modify fun _ => h.plain rfl) fun _ => .pure h.refl _

theorem keeps_pagerSwapslotFree (args curr : Pid × Nat) :
    Keeps R F (pagerSwapslotFree args curr) := by
  unfold pagerSwapslotFree
  refine .ite (.bind h.trans (fun k => ?_) fun _ => .pure h.refl _) (.pure h.refl _)
  unfold swapslotFree
  rw [wp_bind, wp_get, wp_bind, wp_assert]
  refine ⟨fun _ => ?_, fun _ => ⟨h.refl k, h.fault _ rfl⟩⟩
  rw [wp_bind, wp_assert]
  refine ⟨fun _ => ?_, fun _ => ⟨h.refl k, h.fault _ rfl⟩⟩
  rw [wp_bind, wp_failIf]
  refine ⟨fun _ => ⟨h.refl k, h.fault _ rfl⟩, fun _ => ?_⟩
  exact wp_modify.mpr (h.plain rfl)

theorem keeps_listDelete {α : Type} {f : α → PagerM Bool} (hf : ∀ x, Keeps R F (f x)) :
    ∀ l : List α, Keeps R F (listDelete f l)
  | [] => .pure h.refl _
  | x :: l => by
    unfold listDelete
    refine .bind h.trans (hf x) fun b => .ite (keeps_listDelete hf l) ?_
    exact .bind h.trans (keeps_listDelete hf l) fun _ => .pure h.refl _

theorem keeps_swappedDelete (args : Pid × Nat) : Keeps R F (swappedDelete args) :=
  .get fun _ => .bind h.trans (keeps_listDelete h (keeps_pagerSwapslotFree h args) _) fun _ =>
    .modify fun _ => h.plain rfl

theorem keeps_framesFree (pid : Pid) :
    ∀ (l : List (Pid × Nat)) (pt : Pagetable), Keeps R F (framesFree pid pt l)
  | [], pt => .pure h.refl _
  | curr :: rest, pt => by
    unfold framesFree
    refine .ite ?_ ?_
    · refine .bind h.trans (keeps_pagetableLookup h _ _) fun pt' => ?_
      exact .bind h.trans (keeps_pagerFrameFree h _ _) fun _ => keeps_framesFree pid rest pt'
    · exact .bind h.trans (keeps_framesFree pid rest pt) fun _ => .pure h.refl _

theorem keeps_pagetableFree (pt : Pagetable) : Keeps R F (pagetableFree pt) :=
  .forM h.refl h.trans (fun f => keeps_frameFree h f) _

theorem keeps_leaveDisk (pid : Pid) (addr : Nat) (entry : Pte) :
    Keeps R F (leaveDisk pid addr entry) :=
  .bind h.trans (keeps_swappedDelete h _) fun _ => keeps_setEntry h _ _ _

theorem keeps_fillFrame (frame : Nat) : Keeps R F (fillFrame frame) := by
  intro k
  unfold fillFrame
  rw [wp_bind, wp_get, wp_ite]
  exact ⟨fun _ => wp_set.mpr (h.plain rfl), fun _ => wp_set.mpr (h.plain rfl)⟩

end Paging

/-! ## Deletions -/

/-- A relation that allows a process to be cleared away once its PCB is out of the table: its swap
files are forgotten, and those who wait for it are woken. -/
structure Clearing (pid : Pid) (R : Kernel → Kernel → Prop) (F : Fault → Prop) : Prop
    extends Paging R F where
  forget : ∀ k f, R k { k with elffiles := Function.update k.elffiles f none }
  wake : Keeps R F (processWakeAll pid)

section Clearing

variable {pid : Pid} (h : Clearing pid R F)
include h

theorem keeps_regionFree (r : Region) : Keeps R F (regionFree r) := by
  unfold regionFree
  split
  · exact .pure h.refl _
  · refine .bind h.trans (keeps_derefSwapfile h.toClosed _) fun sf => .ite (.pure h.refl _) ?_
    exact .bind h.trans (.modify fun k => h.forget k _) fun _ => keeps_frameFree h.toPaging _

/-- What is left to do once the PCB is out of the table. -/
theorem keeps_processCleanup (p : Process) :
    Keeps R F (do
      let (pt, kept) ← framesFree pid p.pagetable (← get).alloced
      modify fun k => { k with alloced := kept }
      swappedDelete (pid, addressAll)
      pagetableFree pt
      p.regions.forM regionFree
      processWakeAll pid
      return (0 : Int)) := by
  refine .get fun k => .bind h.trans (keeps_framesFree h.toPaging _ _ _) fun x => ?_
  refine .bind h.trans (.modify fun _ => h.plain rfl) fun _ => ?_
  refine .bind h.trans (keeps_swappedDelete h.toPaging _) fun _ => ?_
  refine .bind h.trans (keeps_pagetableFree h.toPaging _) fun _ => ?_
  refine .bind h.trans (.forM h.refl h.trans (fun r => keeps_regionFree h r) _) fun _ => ?_
  exact .bind h.trans h.wake fun _ => .pure h.refl _

end Clearing

/-- A relation that allows the process to end. -/
structure Ending (pid : Pid) (R : Kernel → Kernel → Prop) (F : Fault → Prop) : Prop
    extends Clearing pid R F where
  calls : ∀ k (l : List VfsCall), (∀ c ∈ l, c.fd? = none) → R k { k with calls := k.calls ++ l }
  nextPid : ∀ k next, R k { k with nextPid := next }
  zombie : ∀ k, R k (k.updProcess pid ({ · with state := .zombie }))
  remove : ∀ k p, k.sosProcs pid = .pcb p → R k (k.setSlot pid .null)

theorem Ending.keeps {pid : Pid} (h : Ending pid R F) : Keeps R F (processDelete pid) := by
  intro k
  unfold processDelete processKill
  rw [wp_bind, wp_get]
  split
  · exact wp_pure.mpr (h.refl k)
  · exact wp_throw.mpr ⟨h.refl k, h.fault _ rfl⟩
  · next p hp =>
    rw [wp_bind, wp_bind, wp_get, wp_ite]
    refine ⟨fun _ => ?_, fun _ => wp_pure.mpr (wp_pure.mpr (h.refl k))⟩
    rw [wp_bind]
    refine set_eq.imp fun _ k₁ h₁ => wp_pure.mpr ?_
    have r₁ : R k k₁ := by
      have hplain : Plain k { k with mmu := Function.update k.mmu pid fun _ => none } := rfl
      rw [h₁]
      exact h.trans (h.plain hplain) (h.nextPid _ _)
    have hp₁ : k₁.sosProcs pid = .pcb p := by rw [h₁]; exact hp
    rw [if_pos rfl, wp_bind]
    refine modify_eq.imp fun _ k₂ h₂ => ?_
    have r₂ : R k₁ k₂ := by
      rw [h₂]
      exact h.zombie k₁
    rw [updProcess_of_pcb hp₁] at h₂
    unfold processCloseFiles
    rw [wp_bind]
    refine modify_eq.imp fun _ k₃ h₃ => ?_
    have r₃ : R k₂ k₃ := by
      rw [h₃]
      refine h.calls k₂ _ fun c hc => ?_
      obtain ⟨fd, -, hfd⟩ := List.mem_flatMap.mp hc
      simp only [List.mem_cons, List.not_mem_nil, or_false] at hfd
      rcases hfd with rfl | rfl <;> rfl
    unfold processRemove
    rw [wp_bind]
    refine modify_eq.imp fun _ k₄ h₄ => ?_
    have r₄ : R k₃ k₄ := by
      have hp₃ : k₃.sosProcs pid = .pcb { p with state := .zombie } := by
        rw [h₃, h₂]
        exact setSlot_self
      rw [h₄]
      exact h.remove k₃ _ hp₃
    have r : R k k₄ := h.trans r₁ (h.trans r₂ (h.trans r₃ r₄))
    exact (keeps_processCleanup h.toClearing p k₄).mono (fun _ _ h' => h.trans r h')
      fun _ _ h' => ⟨h.trans r h'.1, h'.2⟩

/-- A relation that also allows swap files to be forgotten. -/
structure Cleaning (R : Kernel → Kernel → Prop) (F : Fault → Prop) : Prop
    extends Messaging R F, Paging R F where
  forget : ∀ k f, R k { k with elffiles := Function.update k.elffiles f none }

theorem Cleaning.clearing (h : Cleaning R F) (pid : Pid) : Clearing pid R F where
  toPaging := h.toPaging
  forget := h.forget
  wake := keeps_processWakeAll h.toMessaging pid

/-- A relation that also allows processes to go. -/
structure Deleting (R : Kernel → Kernel → Prop) (F : Fault → Prop) : Prop
    extends Cleaning R F where
  nextPid : ∀ k pid, R k { k with nextPid := pid }
  remove : ∀ k pid p, k.sosProcs pid = .pcb p → R k (k.setSlot pid .null)

theorem Deleting.ending (h : Deleting R F) (pid : Pid) : Ending pid R F where
  toClearing := h.clearing pid
  calls := h.calls
  nextPid := h.nextPid
  zombie := fun k => h.pcb k pid _ (fun _ => rfl) (fun _ => rfl) fun _ => ⟨rfl, rfl⟩
  remove := fun k => h.remove k pid

theorem keeps_processDelete (h : Deleting R F) (pid : Pid) : Keeps R F (processDelete pid) :=
  (h.ending pid).keeps

/-- A relation that also allows a heap to grow. -/
structure Answering (R : Kernel → Kernel → Prop) (F : Fault → Prop) :
    Prop extends Deleting R F where
  heap : ∀ k pid nb, R k (k.updProcess pid fun p => { p with regions := growHeap nb p.regions })

section Answering

variable (h : Answering R F)
include h

theorem keeps_moremem (pid : Pid) (nb : Nat) : Keeps R F (moremem pid nb) := by
  unfold moremem
  refine .bind h.trans (keeps_derefProcess h.toClosed _) fun p => ?_
  split
  · exact .throw h.refl (h.fault _ rfl)
  · refine .bind h.trans (.modify fun k => h.buffers k _ _ _) fun _ => ?_
    refine .bind h.trans (.modify fun k => h.heap k pid nb) fun _ => ?_
    exact keeps_syscallReply h.toMessaging _ _

theorem keeps_memloc (pid : Pid) (addr : Nat) : Keeps R F (memloc pid addr) :=
  .bind h.trans (keeps_lookupEntry h.toPaging _ _) fun _ => keeps_syscallReply h.toMessaging _ _

theorem keeps_processWait (pid : Pid) (w : Nat) : Keeps R F (processWait pid w) := by
  have hupd : ∀ on : Int, Keeps R F (modify fun k => k.updProcess pid fun p =>
      { p with waitingOn := on, state := .wait }) := fun on =>
    .modify fun k => h.pcb k pid _ (fun _ => rfl) (fun _ => rfl) fun _ => ⟨rfl, rfl⟩
  unfold processWait
  refine .ite (hupd _) ?_
  split
  · refine .get fun k => ?_
    split
    · exact hupd _
    · exact .throw h.refl (h.fault _ rfl)
    · exact hupd _
  · exact .throw h.refl (h.fault _ rfl)

theorem keeps_processDeleteCall (pid : Pid) (w : Nat) : Keeps R F (processDeleteCall pid w) := by
  unfold processDeleteCall
  split
  · refine .bind h.trans (keeps_processDelete h.toDeleting _) fun _ => ?_
    exact .ite (.pure h.refl _) (keeps_syscallReply h.toMessaging _ _)
  · exact .throw h.refl (h.fault _ rfl)

theorem keeps_debugFlush (pid : Pid) : Keeps R F (debugFlush pid) :=
  .bind h.trans (.modify fun _ => h.plain rfl) fun _ => keeps_syscallReplyV h.toMessaging _ _

end Answering

/-- The messages that may queue a request, or answer one. -/
def Event.onQueue : Event → Bool
  | .pagefault .. | .copyin .. | .copyout .. | .vfsReply .. | .processCreate .. => true
  | _ => false

/-- The others. -/
theorem keeps_handleWith (h : Answering R F) {c : Calls} {e : Event} (he : e.onQueue = false) :
    Keeps R F (handleWith c e) := by
  cases e with
  | pagefault | copyin | copyout | vfsReply | processCreate => simp [Event.onQueue] at he
  | moremem pid nb => exact keeps_moremem h _ _
  | memloc pid addr => exact keeps_memloc h _ _
  | memuse pid | swapuse pid => exact .get fun _ => keeps_syscallReply h.toMessaging _ _
  | physuse pid => exact .get fun _ => keeps_syscallReply h.toMessaging _ _
  | processWait pid w => exact keeps_processWait h _ _
  | processDelete pid w => exact keeps_processDeleteCall h _ _
  | debugFlush pid => exact keeps_debugFlush h _
  | exception pid => exact .discard (keeps_processDelete h.toDeleting _)

/-! ## New processes -/

/-- A relation that also allows what comes before a process is there: its executable gets swap
files, and its PCB a tag. -/
structure Loading (R : Kernel → Kernel → Prop) (F : Fault → Prop) : Prop extends Paging R F where
  inc : ∀ k n, R k { k with incs := n }
  elffile : ∀ k f sf, R k { k with elffiles := Function.update k.elffiles f sf }

section Loading

variable (h : Loading R F)
include h

theorem keeps_processInit (psType : ProcessType) : Keeps R F (processInit psType) := by
  unfold processInit pagetableInit
  refine .bind h.trans ?_ fun pt => .get fun k => ?_
  · refine .bind h.trans (keeps_frameAlloc h.toPaging) fun f => ?_
    exact .bind h.trans (keeps_failIf h.toClosed rfl) fun _ => .pure h.refl _
  · exact .bind h.trans (.modify fun k => h.inc k _) fun _ => .pure h.refl _

theorem keeps_addSegment (path : Path) (p : Process) (ph : ProgramHeader) :
    Keeps R F (addSegment path p ph) := by
  unfold addSegment swapfileInit
  refine .bind h.trans ?_ fun f => .bind h.trans (keeps_setRegionOnElf h.toPaging _ _ _) fun pt =>
    .pure h.refl _
  refine .bind h.trans (keeps_frameAlloc h.toPaging) fun f => ?_
  refine .bind h.trans (keeps_failIf h.toClosed rfl) fun _ => ?_
  exact .bind h.trans (.modify fun k => h.elffile k f _) fun _ => .pure h.refl _

end Loading

/-- A relation that also allows a process to come for the pid `child`. -/
structure Spawning (child : Pid) (R : Kernel → Kernel → Prop) (F : Fault → Prop) : Prop
    extends Messaging R F, Loading R F where
  slot : ∀ k s, R k (k.setSlot child s)

section Spawning

variable {child : Pid} (h : Spawning child R F)
include h

theorem keeps_processPrepare2 (p : Process) (fdout fderr fdin : Option Path) :
    Keeps R F (processPrepare2 child p fdout fderr fdin) := by
  unfold processPrepare2 processExists
  refine .bind h.trans ?_ fun _ => .bind h.trans (keeps_assert h.toClosed rfl) fun _ => ?_
  · exact .get fun _ => .bind h.trans (keeps_assert h.toClosed rfl) fun _ => .pure h.refl _
  · refine .ite (.modify fun k => h.slot k _) ?_
    exact .bind h.trans (.modify fun k => h.slot k _) fun _ => keeps_openStdFds h.toMessaging _ _ _

theorem keeps_processRun : Keeps R F (processRun child) := by
  refine .modify fun k => ?_
  have hplain : Plain k { k with mmu := Function.update k.mmu child fun _ => none } := rfl
  exact h.trans (h.plain hplain) (h.pcb _ child _ (fun _ => rfl) (fun _ => rfl) fun _ => ⟨rfl, rfl⟩)

end Spawning

theorem keeps_loadProcess {er : ElfloadRequest} (h : Spawning er.child R F)
    (phs : List ProgramHeader) : Keeps R F (loadProcess er phs) := by
  unfold loadProcess
  refine .bind h.trans (keeps_processInit h.toLoading _) fun p => ?_
  refine .bind h.trans ?_ fun p => ?_
  · exact .foldlM h.refl h.trans (fun p ph => keeps_addSegment h.toLoading _ p ph) _ _
  · exact .bind h.trans (keeps_processPrepare2 h _ _ _ _) fun _ => keeps_processRun h

/-- What `finishSwapelf` does for the request at the head. -/
def finishSwapelfFor (c : Calls) (pr : PagerRequest) : PagerM Unit := do
  let p ← derefProcess pr.pid
  let entry ← lookupEntry pr.pid pr.addr
  match p.regions.find? (findRegion pr.addr) with
  | none => throw .nullPointer
  | some r =>
    zeroTail r pr.addr
    setEntry pr.pid pr.addr { entry with elf := false }
    finishSwapin c

/-- A swap-in at the head is the one that is served. -/
theorem wp_finishSwapelf {k : Kernel} {c : Calls} {Q : Unit → Kernel → Prop}
    {E : Fault → Kernel → Prop} (hE : E .nullPointer k)
    (h : ∀ pr, (∀ pr' rest, k.requests = .swapin pr' :: rest → pr' = pr) →
      Wp (finishSwapelfFor c pr) k Q E) : Wp (finishSwapelf c) k Q E := by
  unfold finishSwapelf
  rw [wp_bind, wp_requestsPeek]
  refine ⟨fun _ => hE, fun r rest hreq => ?_⟩
  cases r with
  | elfload er => exact wp_throw.mpr hE
  | swapout pr => exact h pr fun pr' rest' h' => by rw [hreq] at h'; simp at h'
  | swapin pr =>
    refine h pr fun pr' rest' h' => ?_
    rw [hreq] at h'
    simp only [List.cons.injEq, Request.swapin.injEq] at h'
    exact h'.1.symm

end Sos
