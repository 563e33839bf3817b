import Sos.Control.Replies

/-!
# Messages, with an eye on descriptors

The stages of a load, and every message the pager takes.
-/

namespace Sos

open Hoare

variable {k k' : Kernel} {c : Calls} {D : Set Int} {B : Set Request} {er : ElfloadRequest}
variable {rest : List Request} {pid : Pid} {G : Prop}

/-! ## Loading a program -/

theorem finishElfload_tames {rval : Int} (hc : ∀ B, CallsTame D B c) (ho : Orderly D B k) :
    Tames D ∅ (finishElfload c rval) k := by
  unfold finishElfload
  rw [Tames, wp_bind, wp_requestsPeek]
  refine ⟨fun _ => ⟨.refl k, rfl⟩, fun r rest hreq => ?_⟩
  split
  · refine Tames.bind_still (keeps_processGetTid still_closed _) fun tid k₁ h₁ => ?_
    refine Tames.bind_still (keeps_syscallReply still_messaging _ _) fun _ k₂ h₂ => ?_
    exact dequeueRequest_tames (hc ∅) ((ho.of_still h₁).of_still h₂)
  · exact wp_throw.mpr ⟨.refl k, rfl⟩

/-- The load at the head goes to its next stage with its pid reserved as before. -/
theorem Reserved.of_load {er' : ElfloadRequest} (hreq : k.requests = .elfload er :: rest)
    (hchild : er'.child = er.child) (hst : er'.stage ≠ .close → er.stage ≠ .close)
    (hres : Reserved k) : Reserved { k with requests := .elfload er' :: rest } := by
  have hloads : k.loads = er :: rest.filterMap Request.load? := by
    unfold Kernel.loads
    rw [hreq]
    rfl
  have hslot := hres.slot
  have hdist := hres.distinct
  rw [hloads] at hslot hdist
  rw [List.pairwise_cons] at hdist
  refine ⟨fun er₁ her₁ hs => ?_, List.pairwise_cons.mpr ⟨fun b hb hs hb' => ?_, hdist.2⟩⟩
  · rcases List.mem_cons.mp
      (show er₁ ∈ er' :: rest.filterMap Request.load? from her₁) with rfl | her₁
    · show k.sosProcs er₁.child = _
      rw [hchild]
      exact hslot er (List.mem_cons_self ..) (hst hs)
    · exact hslot er₁ (List.mem_cons_of_mem _ her₁) hs
  · rw [hchild]
    exact hdist.1 b hb (hst hs) hb'

/-- A process is being made for a pid: the other slots and the queue are as they were. -/
structure Making (child : Pid) (k k' : Kernel) : Prop where
  slots : ∀ pid, pid ≠ child → (k.sosProcs pid).tag.After (k'.sosProcs pid).tag
  calls : CallsQuiet k k'
  requests : k'.requests = k.requests
  requestActive : k'.requestActive = k.requestActive

theorem Still.making {child : Pid} (h : Still k k') : Making child k k' :=
  ⟨fun pid _ => h.slots pid, h.calls, h.requests, h.requestActive⟩

theorem making_closed {child : Pid} : Closed (Making child) NotOnReply where
  refl := fun k => (still_closed.refl k).making
  trans := fun h h' =>
    ⟨fun pid hp => (h.slots pid hp).trans (h'.slots pid hp), h.calls.trans h'.calls,
      h'.requests.trans h.requests, h'.requestActive.trans h.requestActive⟩
  fault := fun _ h => (Fault.of_not_watched h).1

theorem making_spawning {child : Pid} : Spawning child (Making child) NotOnReply where
  toClosed := making_closed
  plain := fun h => (still_paging.plain h).making
  pages := fun k pid g hg => (still_paging.pages k pid g hg).making
  buffers := fun k data buf mem => (still_messaging.buffers k data buf mem).making
  calls := fun k l hl => (still_messaging.calls k l hl).making
  reply := fun k rs => (still_messaging.reply k rs).making
  pcb := fun k pid g h h' h'' => (still_messaging.pcb k pid g h h' h'').making
  inc := fun _ _ => ⟨fun _ _ => .inl rfl, .of_eq rfl, rfl, rfl⟩
  elffile := fun _ _ _ => ⟨fun _ _ => .inl rfl, .of_eq rfl, rfl, rfl⟩
  slot := fun _ _ => ⟨fun pid hp => .inl (by rw [setSlot_of_ne hp]), .of_eq rfl, rfl, rfl⟩

/-- The process has been made: the slot of its load is no longer reserved, those of the others
are. -/
theorem Reserved.of_making (hreq : k.requests = .elfload er :: rest) (hst : er.stage ≠ .close)
    (h : Making er.child k k') (hres : Reserved k) :
    Reserved { k' with requests := .elfload { er with stage := .close } :: rest } := by
  have hloads : k.loads = er :: rest.filterMap Request.load? := by
    unfold Kernel.loads
    rw [hreq]
    rfl
  have hdist := hres.distinct
  rw [hloads, List.pairwise_cons] at hdist
  refine ⟨fun er₁ her₁ hs => ?_, List.pairwise_cons.mpr ⟨fun b _ hs => absurd rfl hs, hdist.2⟩⟩
  rcases List.mem_cons.mp
    (show er₁ ∈ { er with stage := .close } ::
      rest.filterMap Request.load? from her₁) with rfl | her₁
  · exact absurd rfl hs
  · have hne : er₁.child ≠ er.child := (hdist.1 er₁ her₁ hst hs).symm
    have hslot := hres.slot er₁ (by rw [hloads]; exact List.mem_cons_of_mem _ her₁) hs
    obtain he | ⟨⟨inc, hinc⟩, -⟩ := h.slots er₁.child hne
    · exact Slot.tag_eq_reserved.mp (he.trans (Slot.tag_eq_reserved.mpr hslot))
    · rw [hslot] at hinc
      simp [Slot.tag] at hinc

theorem continueElfload_answers {vfsRval : Int} (hc : ∀ B, CallsTame D B c) (ho : Orderly D ∅ k)
    (hactive : k.requestActive = true) (hreq : k.requests = .elfload er :: rest)
    (hopen : er.stage = .open → 0 ≤ vfsRval → vfsRval ∈ D)
    (hstat : G → er.stage = .checkExec → vfsRval = 0) :
    Answers D G (continueElfload c er vfsRval) k := by
  obtain ⟨hu, htail⟩ := ho.underway hactive hreq
  have hfinish : ∀ rval, Answers D G (finishElfload c rval) k := fun rval =>
    (finishElfload_tames hc ho).answers
  unfold continueElfload
  split
  · next hst =>
    rw [Answers, wp_ite]
    refine ⟨fun _ => hfinish (-1), fun hpos => ?_⟩
    rw [wp_bind, wp_get, wp_bind]
    refine set_eq.imp fun _ k₁ h₁ => ?_
    have s₁ : Still k k₁ := by rw [h₁]; exact still_messaging.buffers k _ k.copyInOutBuffer k.memory
    rw [wp_bind]
    refine (keeps_strncpyToBuffer still_messaging _ _ k₁).mono (fun _ k₂ h₂ => ?_)
      fun _ _ h => ⟨(s₁.calls.trans h.1.calls).on, fun _ => h.2⟩
    rw [wp_bind]
    refine (keeps_vfsCall still_messaging rfl k₂).mono (fun _ k₃ h₃ => ?_)
      fun _ _ h => ⟨((s₁.calls.trans h₂.calls).trans h.1.calls).on, fun _ => h.2⟩
    have h := still_closed.trans s₁ (still_closed.trans h₂ h₃)
    have hreq₃ := h.requests.trans hreq
    refine setHead_answers h.calls.on hreq₃ (h.requestActive.trans hactive) htail (fun hres => ?_)
      fun _ => hopen hst (by omega)
    exact (hres.of_tame h.tame).of_load hreq₃ rfl fun _ => by rw [hst]; simp
  · next hst =>
    rw [Answers, wp_bind, wp_assert]
    refine ⟨fun _ => ?_, fun h => ⟨.of_eq rfl, fun hg => by simp [hstat hg hst] at h⟩⟩
    rw [wp_bind, wp_get, wp_ite]
    refine ⟨fun _ => hfinish (-1), fun _ => ?_⟩
    have hfd : er.fd ∈ D := hu (.inl hst)
    unfold vfsCall
    rw [wp_bind]
    refine modify_eq.imp fun _ k₁ h₁ => ?_
    have s₁ : Stage D k k₁ := by
      rw [h₁]
      refine .call fun fd h => ?_
      injection h with h
      exact h ▸ hfd
    have hreq₁ := s₁.requests.trans hreq
    refine setHead_answers s₁.calls hreq₁ (s₁.requestActive.trans hactive) htail (fun hres => ?_)
      fun _ => hfd
    exact (s₁.reserved hres).of_load hreq₁ rfl fun _ => by rw [hst]; simp
  · next hst =>
    rw [Answers, wp_bind, wp_get, wp_ite]
    refine ⟨fun _ => hfinish (-1), fun _ => ?_⟩
    have hfd : er.fd ∈ D := hu (.inr hst)
    rw [wp_bind]
    refine (keeps_loadProcess making_spawning _ k).mono (fun _ k₁ h₁ => ?_) fun _ _ h =>
      ⟨h.1.calls.on, fun _ => h.2⟩
    unfold vfsCall
    rw [wp_bind]
    refine modify_eq.imp fun _ k₂ h₂ => ?_
    have hcalls : CallsOn D k k₂ := by
      refine h₁.calls.on.trans (callsOn_call (fun fd h => ?_) (by rw [h₂]))
      injection h with h
      exact h ▸ hfd
    refine setHead_answers hcalls (by rw [h₂]; exact h₁.requests.trans hreq)
      (by rw [h₂]; exact h₁.requestActive.trans hactive) htail (fun hres => ?_)
      fun h => by simp at h
    have hmade := hres.of_making hreq (by rw [hst]; simp) h₁
    rw [h₂]
    exact ⟨hmade.slot, hmade.distinct⟩
  · exact hfinish _

/-! ## Asking for a load -/

/-- `reserve_pid` takes a free slot. -/
theorem wp_reservePid {Q : Option Pid → Kernel → Prop}
    (hnone : ∀ k', Still k k' → Q none k')
    (hsome : ∀ pid k₁, Still k k₁ → k₁.sosProcs pid = .null →
      Q (some pid) (k₁.setSlot pid .placeholder)) :
    Wp reservePid k Q (fun f k' => CallsQuiet k k' ∧ NotOnReply f) := by
  unfold reservePid getNextPid
  rw [wp_bind, wp_bind, wp_get, wp_bind]
  refine set_eq.imp fun _ k₁ h₁ => ?_
  have s₁ : Still k k₁ := by rw [h₁]; exact still_deleting.nextPid k _
  split
  · next hnull =>
    rw [wp_pure]
    unfold processExists
    simp only [wp_bind, wp_get]
    rw [wp_assert]
    refine ⟨fun _ => ?_, fun _ => ⟨s₁.calls, rfl⟩⟩
    rw [wp_pure, wp_assert]
    refine ⟨fun _ => ?_, fun _ => ⟨s₁.calls, rfl⟩⟩
    rw [wp_modify]
    refine wp_pure.mpr (hsome _ k₁ s₁ ?_)
    rw [h₁]
    exact hnull
  · exact wp_pure.mpr (wp_pure.mpr (hnone k₁ s₁))

/-- A load with a freshly reserved pid goes to the end of the queue. -/
theorem Reserved.append (hres : Reserved k) (hnull : k.sosProcs er.child = .null)
    (hreq : k'.requests = k.requests ++ [.elfload er])
    (hprocs : k'.sosProcs = (k.setSlot er.child .placeholder).sosProcs) : Reserved k' := by
  have hloads : k'.loads = k.loads ++ [er] := by
    unfold Kernel.loads
    rw [hreq, List.filterMap_append]
    rfl
  have hne : ∀ er' ∈ k.loads, er'.stage ≠ .close → er'.child ≠ er.child := by
    intro er' her' hs he
    have hslot := hres.slot er' her' hs
    rw [he, hnull] at hslot
    simp at hslot
  refine ⟨fun er' her' hs => ?_, ?_⟩
  · rw [hprocs]
    rw [hloads] at her'
    rcases List.mem_append.mp her' with her' | her'
    · exact (setSlot_of_ne (hne er' her' hs)).trans (hres.slot er' her' hs)
    · rw [List.mem_singleton.mp her']
      exact setSlot_self
  · rw [hloads, List.pairwise_append]
    refine ⟨hres.distinct, List.pairwise_singleton _ _, fun a ha b hb hs _ => ?_⟩
    rw [List.mem_singleton.mp hb]
    exact hne a ha hs

theorem processCreate_answers {fdout fderr fdin : Int} (hc : ∀ B, CallsTame D B c)
    (ho : Orderly D ∅ k) : Answers D G (processCreate c pid fdout fderr fdin) k := by
  unfold processCreate
  rw [Answers, wp_bind]
  refine (wp_reservePid (k := k) (Q := fun o k' =>
    (o = none ∧ Still k k') ∨ ∃ child k₁, o = some child ∧ Still k k₁ ∧
      k₁.sosProcs child = .null ∧ k' = k₁.setSlot child .placeholder)
    (fun k' h => .inl ⟨rfl, h⟩)
    fun child k₁ h hnull => .inr ⟨child, k₁, rfl, h, hnull, rfl⟩).mono ?_
    fun _ _ h => ⟨h.1.on, fun _ => h.2⟩
  rintro o k' (⟨rfl, h⟩ | ⟨child, k₁, rfl, h, hnull, rfl⟩)
  · exact ((Tames.of_keeps (keeps_syscallReply still_messaging _ _) (ho.of_still h)).answers).after
      h.calls.on fun hr => hr.of_tame h.tame
  · -- the reserved slot was free, so nothing else changes for the loads already queued
    have ho₂ : Orderly D ∅ (k₁.setSlot child .placeholder) := by
      have ho₁ := ho.of_still h
      exact ⟨fun ha => (ho₁.head ha).imp fun r => Exists.imp fun rest h =>
        ⟨h.1, h.2.imp_left fun hu => hu.of_fds fun _ => .inl rfl⟩, ho₁.tail, ho₁.idle⟩
    have hcalls : CallsQuiet k (k₁.setSlot child .placeholder) := h.calls.trans (.of_eq rfl)
    rw [wp_bind, wp_derefProcess]
    refine ⟨fun _ => ⟨hcalls.on, fun _ => rfl⟩, fun _ => ⟨hcalls.on, fun _ => rfl⟩, fun p _ => ?_⟩
    rw [wp_bind, wp_get]
    refine (queueRequest_orderly (hc ∅) ho₂ fun er he => ?_).mono (fun _ k' h' => ?_)
      fun _ _ h' => ⟨(hcalls.trans h'.1).on, fun _ => h'.2⟩
    · injection he with he
      rw [← he]
    · refine ⟨(hcalls.trans h'.1.calls).on, fun hres => ?_, h'.2⟩
      refine Reserved.of_tame ?_ h'.1
      exact Reserved.append (hres.of_tame h.tame) (by exact hnull) rfl rfl

/-! ## All messages -/

/-- The answer is one the stage of the request at the head can deal with: an `open` of a swap file
and a `stat` succeed, and a `read` brings something, but not more than there is room for. A process
with a request in the queue is not deleted: `region_free` would free the ELF swap file that
`continueSwapin` goes on with, and the last stages would follow a process that is not there. -/
def Accepts (k : Kernel) : Event → Prop
  | .vfsReply rval _ =>
    match k.requests with
    | .swapin pr :: _ =>
      (pr.stage = some .swapinOpen → 0 ≤ rval) ∧
        (pr.stage = some .swapinRead → 0 < rval ∧ pr.offset + rval ≤ pr.size)
    | .swapout pr :: _ => pr.stage = some .swapoutOpen → 0 ≤ rval
    | .elfload er :: _ => er.stage = .checkExec → rval = 0
    | [] => True
  | e => SparesQueued k e

instance (k : Kernel) (e : Event) : Decidable (Accepts k e) := by
  unfold Accepts
  split
  · split <;> infer_instance
  all_goals infer_instance

/-- The request at the head waits for the answer to its `open`. -/
def Kernel.Opening (k : Kernel) : Prop :=
  match k.requests with
  | .swapin pr :: _ => pr.stage = some .swapinOpen
  | .swapout pr :: _ => pr.stage = some .swapoutOpen
  | .elfload er :: _ => er.stage = .open
  | [] => False

/-- The descriptor a message brings: the answer to a successful `open`. -/
def Event.given (k : Kernel) : Event → Set Int
  | .vfsReply rval _ => { fd | fd = rval ∧ k.Opening ∧ 0 ≤ rval }
  | _ => ∅

theorem vfsHandler_answers {rval : Int} {buffer : Nat → UInt8} (hc : ∀ B, CallsTame D B c)
    (ho : Orderly D ∅ k) (hactive : k.requestActive = true)
    (hG : G → Accepts k (.vfsReply rval buffer))
    (hgiven : Event.given k (.vfsReply rval buffer) ⊆ D) (hD : G ∨ D = Set.univ) :
    Answers D G (vfsHandler c rval) k := by
  obtain ⟨r, rest, hreq, -⟩ := ho.head hactive
  have hmem : k.Opening → 0 ≤ rval → rval ∈ D := fun h h0 => hgiven ⟨rfl, h, h0⟩
  -- a descriptor that is not from a successful `open` is entered only if `D` has them all
  have hswap : (G → 0 ≤ rval) → k.Opening → rval ∈ D ∧ (G → 0 ≤ rval) := fun h0 h => by
    refine ⟨?_, h0⟩
    rcases hD with hg | rfl
    · exact hmem h (h0 hg)
    · trivial
  unfold Accepts at hG
  unfold Kernel.Opening at hmem hswap
  simp only [hreq] at hG hmem hswap
  unfold vfsHandler
  rw [Answers, wp_bind, wp_requestsPeek]
  refine ⟨fun hnil => by simp [hreq] at hnil, fun r' rest' hreq' => ?_⟩
  obtain ⟨rfl, -⟩ : r = r' ∧ rest = rest' := List.cons.inj (hreq.symm.trans hreq')
  cases r with
  | swapin pr =>
    exact continueSwapin_answers hc ho hactive hreq (fun h => hswap (fun hg => (hG hg).1 h) h)
      fun hg => (hG hg).2
  | swapout pr =>
    exact continueSwapout_answers hc ho hactive hreq fun h => hswap (fun hg => hG hg h) h
  | elfload er => exact continueElfload_answers hc ho hactive hreq hmem hG

theorem copyStart_answers {addr size rights : Nat} {append : Bool} {callback : Callback}
    (hc : ∀ B, CallsTame D B c) (ho : Orderly D ∅ k) :
    Answers D G (copyStart c pid addr size append rights callback) k := by
  refine Answers.bind_still (.modify fun _ => still_messaging.buffers _ _ _ _) fun _ k₁ h₁ => ?_
  refine Answers.bind_still (keeps_allocPagerRequest still_closed _ _ _ _ _) fun pr k₂ h₂ => ?_
  exact (pager_tames (hc ∅) ((ho.of_still h₁).of_still h₂)).answers

theorem still_answering : Answering Still NotOnReply where
  toDeleting := still_deleting
  heap := fun _ _ _ => still_updProcess fun _ => rfl

theorem handleWith_answers {e : Event} (hc : ∀ B, CallsTame D B c) (ho : Orderly D ∅ k)
    (hen : Enabled k e) (hG : G → Accepts k e) (hgiven : e.given k ⊆ D) (hD : G ∨ D = Set.univ) :
    Answers D G (handleWith c e) k := by
  have hstill : ∀ {e : Event}, e.onQueue = false → Answers D G (handleWith c e) k := fun he =>
    (Tames.of_keeps (keeps_handleWith still_answering he) ho).answers
  cases e with
  | pagefault pid addr rights =>
    refine Answers.bind_still (keeps_allocPagerRequest still_closed _ _ _ _ _) fun pr k₁ h₁ => ?_
    exact (pager_tames (hc ∅) (ho.of_still h₁)).answers
  | copyin pid src size append | copyout pid dst size append => exact copyStart_answers hc ho
  | vfsReply rval buffer =>
    refine Answers.bind_still (keeps_buffers still_messaging) fun _ k₁ h₁ => ?_
    have hG₁ : G → Accepts k₁ (.vfsReply rval buffer) := by
      unfold Accepts at hG ⊢
      rw [h₁.requests]
      exact hG
    have hgiven₁ : Event.given k₁ (.vfsReply rval buffer) ⊆ D := by
      intro fd hfd
      refine hgiven ⟨hfd.1, ?_, hfd.2.2⟩
      have h := hfd.2.1
      unfold Kernel.Opening at h ⊢
      rw [h₁.requests] at h
      exact h
    exact vfsHandler_answers hc (ho.of_still h₁) (h₁.requestActive.trans hen) hG₁ hgiven₁ hD
  | processCreate pid fdout fderr fdin => exact processCreate_answers hc ho
  | moremem | memloc | memuse | swapuse | physuse | processWait | processDelete | debugFlush
  | exception => exact hstill rfl

/-- **A message is handled with calls on open descriptors only.** Either the reply is a good one and
no assertion on it fails, or nothing is said about descriptors. -/
theorem handle_answers {e : Event} (n : Nat) (ho : Orderly D ∅ k) (hen : Enabled k e)
    (hG : G → Accepts k e) (hgiven : e.given k ⊆ D) (hD : G ∨ D = Set.univ) :
    Answers D G (handle n e) k :=
  handleWith_answers (fun _ => calls_tame n) ho hen hG hgiven hD

/-- More descriptors may be open. -/
theorem Orderly.mono {D' : Set Int} (ho : Orderly D B k) (hd : D ⊆ D') : Orderly D' B k where
  head := fun ha => by
    obtain ⟨r, rest, hreq, hu⟩ := ho.head ha
    refine ⟨r, rest, hreq, hu.imp_left fun hu => ?_⟩
    cases r with
    | elfload er => exact fun h => hd (hu h)
    | swapin pr =>
      unfold Request.Underway at hu ⊢
      dsimp only at hu ⊢
      split at hu
      · exact hu
      · exact ⟨hu.1, hu.2.1, fun d h => hd (hu.2.2 d h)⟩
      · exact ⟨hu.1, hu.2.1, fun d h => hd (hu.2.2 d h)⟩
      · exact hu
      · exact hu.elim
    | swapout pr =>
      unfold Request.Underway at hu ⊢
      dsimp only at hu ⊢
      split at hu
      · exact hu
      · exact ⟨hu.1, hu.2.1, fun d h => hd (hu.2.2 d h)⟩
      · exact hu
      · exact hu.elim
  tail := ho.tail
  idle := ho.idle

end Sos
