import Sos.Queue.Finish
import Sos.Simulation.Boot

/-!
# Every message settles the queue

The stages of swaps and loads, and the theorem for all messages: in a state in which a request is
active exactly when the queue is not empty, so it is after every message (`handle_passes`), as long
as no waiting request that is restarted has overrun the others.
-/

namespace Sos

open Hoare

variable {k k' k₀ k₁ : Kernel} {c : Calls} {pid : Pid} {pr : PagerRequest} {r r' : Request}
variable {M : Set Nat} {rest : List Request} {er : ElfloadRequest}
variable {m : PagerM Unit} {vfsRval : Int} {e : Event}

/-! ## Calls to the file system -/

theorem steady_vfsCall (v : VfsCall) : Keeps Steady Harmless (vfsCall v) :=
  .modify fun _ => ⟨rfl, rfl, rfl, fun _ h => h⟩

theorem steady_assert {b : Bool} {site : Site} (h : Harmless (.assertion site)) :
    Keeps Steady Harmless (assert b site) := by
  unfold assert
  exact .ite (.pure Steady.refl _) (.throw Steady.refl h)

theorem steady_setSwapfileFd {ptr : SwapfilePtr} {fd : Int} :
    Steady k (k.setSwapfileFd ptr fd) := by
  cases ptr <;> exact ⟨rfl, rfl, rfl, fun _ h => h⟩

theorem steady_swapfileSetFd (ptr : SwapfilePtr) (fd : Int) :
    Keeps Steady Harmless (swapfileSetFd ptr fd) := by
  unfold swapfileSetFd
  refine .bind Steady.trans (keeps_derefSwapfile steady_closed ptr) fun sf => ?_
  refine .bind Steady.trans (steady_assert ⟨rfl, rfl⟩) fun _ => ?_
  exact .bind Steady.trans (steady_assert ⟨rfl, rfl⟩) fun _ => .modify fun _ => steady_setSwapfileFd

theorem steady_swapfileClose (ptr : SwapfilePtr) : Keeps Steady Harmless (swapfileClose ptr) := by
  unfold swapfileClose
  refine .bind Steady.trans (keeps_derefSwapfile steady_closed ptr) fun sf => ?_
  refine .bind Steady.trans (steady_assert ⟨rfl, rfl⟩) fun _ => ?_
  exact .bind Steady.trans (steady_vfsCall _) fun _ => .modify fun _ => steady_setSwapfileFd

theorem steady_readRest (pr : PagerRequest) : Keeps Steady Harmless (readRest pr) :=
  .bind Steady.trans (keeps_swapfileGetFd steady_closed _) fun _ => steady_vfsCall _

/-! ## The stages of a swap -/

/-- A stage of the request at the head: `k₀` is the state it began in. -/
structure Staging (r : Request) (k₀ k : Kernel) : Prop where
  carries : Carries k₀ k
  requestActive : k.requestActive = true
  requests : ∃ rest, k.requests = r :: rest

theorem Staging.bind {α β : Type} {m : PagerM α} {f : α → PagerM β} (h : Staging r k₀ k)
    (hm : Keeps Steady Harmless m) (hf : ∀ a k', Staging r k₀ k' → Ends k₀ (f a) k') :
    Ends k₀ (m >>= f) k := by
  refine wp_bind.mpr ((hm k).mono (fun a k' hst => hf a k' ⟨h.carries.trans hst.carries, ?_, ?_⟩)
    fun _ _ h' => h'.2.blamed)
  · exact hst.requestActive.trans h.requestActive
  · rw [hst.requests]
    exact h.requests

/-- The request at the head is replaced by one for the same page. -/
theorem Staging.carries_setHead (h : Staging r k₀ k)
    (hsame : ∀ pr, r = .swapin pr → ∃ pr', r' = .swapin pr' ∧ pr'.pid = pr.pid ∧
      pr'.addr = pr.addr) :
    Staging r' k₀ { k with requests := r' :: k.requests.tail } := by
  obtain ⟨rest, hreq⟩ := h.requests
  refine ⟨h.carries.trans ⟨id, fun _ hd => hd, ?_⟩, h.requestActive, ⟨_, rfl⟩⟩
  rintro pid addr ⟨hdead, pr, hpr, hpid, haddr⟩
  refine ⟨hdead, ?_⟩
  rw [hreq] at hpr ⊢
  rcases List.mem_cons.mp hpr with heq | hmem
  · obtain ⟨pr', rfl, hpid', haddr'⟩ := hsame pr heq.symm
    exact ⟨pr', List.mem_cons_self .., hpid'.trans hpid, haddr'.trans haddr⟩
  · exact ⟨pr, List.mem_cons_of_mem _ hmem, hpid, haddr⟩

theorem Staging.settled (h : Staging r k₀ k) : Settled k := by
  obtain ⟨rest, hreq⟩ := h.requests
  exact .of_active h.requestActive (by rw [hreq]; simp)

theorem Staging.setHead (h : Staging r k₀ k)
    (hsame : ∀ pr, r = .swapin pr → ∃ pr', r' = .swapin pr' ∧ pr'.pid = pr.pid ∧
      pr'.addr = pr.addr) :
    Ends k₀ (setHead r') k :=
  wp_modify.mpr ⟨(h.carries_setHead hsame).carries, (h.carries_setHead hsame).settled⟩

/-- What is left of a stage leaves the queue alone. -/
theorem Staging.ends (h : Staging r k₀ k) (hm : Keeps Steady Harmless m) :
    Ends k₀ m k :=
  (hm k).mono (fun _ _ hst => ⟨h.carries.trans hst.carries, h.settled.of_steady hst⟩)
    fun _ _ h' => h'.2.blamed

theorem same_swapin {pr pr' : PagerRequest} (hpid : pr'.pid = pr.pid) (haddr : pr'.addr = pr.addr) :
    ∀ pr₁, Request.swapin pr = .swapin pr₁ →
      ∃ pr₂, Request.swapin pr' = .swapin pr₂ ∧ pr₂.pid = pr₁.pid ∧ pr₂.addr = pr₁.addr := by
  rintro pr₁ heq
  injection heq with heq
  subst heq
  exact ⟨pr', rfl, hpid, haddr⟩

theorem continueSwapin_ends (hc : CallsSettle M c) (hf : Fit k)
    (hactive : k.requestActive = true) (hreq : k.requests = .swapin pr :: rest) :
    Ends k (continueSwapin c pr vfsRval) k := by
  have h : Staging (.swapin pr) k k := ⟨(Steady.refl k).carries, hactive, rest, hreq⟩
  unfold continueSwapin
  split
  · refine h.bind (steady_swapfileSetFd _ _) fun _ k₁ h₁ => ?_
    refine h₁.bind (keeps_lookupEntry steady_paging _ _) fun entry k₂ h₂ => ?_
    refine h₂.bind (keeps_swapfileGetFd steady_closed _) fun fd k₃ h₃ => ?_
    exact h₃.bind (steady_vfsCall _) fun _ k₄ h₄ => h₄.setHead (same_swapin rfl rfl)
  · exact h.bind (steady_readRest _) fun _ k₁ h₁ => h₁.setHead (same_swapin rfl rfl)
  · refine h.bind (steady_assert ⟨rfl, rfl⟩) fun _ k₁ h₁ => ?_
    refine h₁.bind (steady_assert ⟨rfl, rfl⟩) fun _ k₂ h₂ => ?_
    refine h₂.bind (keeps_buffers steady_messaging) fun _ k₃ h₃ => ?_
    refine wp_bind.mpr (wp_modify.mpr ?_)
    have h₄ : Staging (.swapin { pr with offset := pr.offset + vfsRval }) k _ :=
      h₃.carries_setHead (same_swapin rfl rfl)
    refine h₄.bind (steady_assert ⟨rfl, rfl⟩) fun _ k₅ h₅ => ?_
    rw [Ends, wp_ite]
    refine ⟨fun _ => ?_, fun _ => h₅.ends (steady_readRest _)⟩
    exact h₅.bind (steady_swapfileClose _) fun _ k₆ h₆ => h₆.setHead (same_swapin rfl rfl)
  · split
    · exact wp_throw.mpr (.unwatched rfl)
    · exact finishSwapin_ends (P := k.pool) hc hf.shape hactive
        (fun _ _ _ => ⟨.inl rfl, fun hb => by simp at hb⟩) hf.inv
    · exact finishSwapelf_ends hc hf hactive
  · exact wp_throw.mpr (Harmless.blamed ⟨rfl, rfl⟩)

theorem continueSwapout_ends (hc : CallsSettle M c) (hf : Fit k)
    (hactive : k.requestActive = true) (hreq : k.requests = .swapout pr :: rest) :
    Ends k (continueSwapout c pr vfsRval) k := by
  have h : Staging (.swapout pr) k k := ⟨(Steady.refl k).carries, hactive, rest, hreq⟩
  have hsame : ∀ pr', ∀ pr₁, Request.swapout pr = .swapin pr₁ →
      ∃ pr₂, Request.swapout pr' = .swapin pr₂ ∧ pr₂.pid = pr₁.pid ∧ pr₂.addr = pr₁.addr :=
    fun pr' pr₁ heq => by simp at heq
  unfold continueSwapout
  rw [Ends, wp_bind, wp_assert]
  refine ⟨fun _ => ?_, fun _ => Harmless.blamed ⟨rfl, rfl⟩⟩
  split
  · refine h.bind (steady_swapfileSetFd _ _) fun _ k₁ h₁ => ?_
    refine h₁.bind (keeps_swapfileGetFd steady_closed _) fun fd k₂ h₂ => ?_
    exact h₂.bind (steady_vfsCall _) fun _ k₃ h₃ => h₃.setHead (hsame _)
  · refine h.bind (steady_assert ⟨rfl, rfl⟩) fun _ k₁ h₁ => ?_
    rw [Ends, wp_ite]
    refine ⟨fun _ => h₁.bind (steady_swapfileClose _) fun _ k₂ h₂ => h₂.setHead (hsame _),
      fun _ => ?_⟩
    refine h₁.bind (keeps_buffers steady_messaging) fun _ k₂ h₂ => ?_
    refine h₂.bind (keeps_swapfileGetFd steady_closed _) fun fd k₃ h₃ => ?_
    exact h₃.bind (steady_vfsCall _) fun _ k₄ h₄ => h₄.setHead (hsame _)
  · exact finishSwapout_ends hc hf hactive
  · exact wp_throw.mpr (Harmless.blamed ⟨rfl, rfl⟩)

/-! ## Loading -/

/-- What a message leaves. A process may have come for the pid of a dead one whose requests are in
the queue. -/
structure Passed (k k' : Kernel) : Prop where
  overrun : k.overrun = true → k'.overrun = true
  settled : Settled k'
  kept : ∀ pid addr, k.Orphan pid addr → ∃ pr, .swapin pr ∈ k'.requests ∧ pr.pid = pid ∧
    pr.addr = addr

abbrev Passes (m : PagerM Unit) (k : Kernel) : Prop := Wp m k (fun _ k' => Passed k k') Blamed

theorem Ends.passes (h : Ends k m k) : Passes m k :=
  h.imp fun _ _ h => ⟨h.1.overrun, h.2, fun pid addr ho => (h.1.orphan pid addr ho).2⟩

theorem Settles.passes (h : Settles M m k) : Passes m k :=
  Ends.passes (h.imp fun _ _ h => h.2)

theorem finishElfload_ends {rval : Int} (hc : CallsSettle M c) (hf : Fit k)
    (hactive : k.requestActive = true) : Ends k (finishElfload c rval) k := by
  unfold finishElfload
  rw [Ends, wp_bind, wp_requestsPeek]
  refine ⟨fun _ => .unwatched rfl, fun r rest hreq => ?_⟩
  cases r with
  | swapin pr | swapout pr => exact wp_throw.mpr (.unwatched rfl)
  | elfload er =>
    have hreply : ∀ tid k₁, Wp (syscallReply tid rval) k₁ (fun _ k₂ => Idle k₁ k₂ ∧ Steady k₁ k₂)
        Blamed := fun tid k₁ => ((keeps_syscallReply idle_unwatched tid rval k₁).and
      (keeps_syscallReply steady_messaging tid rval k₁)).mono (fun _ _ h => h) fun _ _ h =>
        h.2.2.blamed
    have htid : Wp (processGetTid er.parent) k (fun _ k₁ => k₁ = k) Blamed := by
      unfold processGetTid
      rw [wp_bind, wp_get]
      split
      · exact wp_pure.mpr rfl
      · exact wp_throw.mpr (.unwatched rfl)
      · exact wp_pure.mpr rfl
    rw [wp_bind]
    refine htid.imp fun tid k₁ h₁ => ?_
    rw [h₁, wp_bind]
    refine (hreply tid k).imp fun _ k₂ h₂ => ?_
    obtain ⟨hidle, hst⟩ := h₂
    have hreq₂ : k₂.requests = .elfload er :: rest := hst.requests.trans hreq
    have hno : ∀ r ∈ k₂.requests, r.isSwapout = false := by
      intro r hr
      rw [hreq₂] at hr
      rcases List.mem_cons.mp hr with rfl | hr
      · rfl
      · exact hf.shape.tail r (by rw [hreq]; exact hr)
    have hcar : Carries k { k₂ with requestActive := false, requests := rest } :=
      hst.carries.trans (.of_unshift hreq₂ id fun pr heq => by simp at heq)
    exact (dequeueRequest_ends hc (by rw [hidle.pool]; exact hf.inv)
      (hst.requestActive.trans hactive) hno hreq₂).imp fun _ k' h => ⟨hcar.trans h.1, h.2⟩

/-- The queue is as it was. -/
structure Level (k k' : Kernel) : Prop where
  requests : k'.requests = k.requests
  requestActive : k'.requestActive = k.requestActive
  overrun : k'.overrun = k.overrun

theorem Steady.level (h : Steady k k') : Level k k' := ⟨h.requests, h.requestActive, h.overrun⟩

theorem level_spawning {child : Pid} : Spawning child Level Harmless where
  refl := fun k => (Steady.refl k).level
  trans := fun h h' => ⟨h'.requests.trans h.requests, h'.requestActive.trans h.requestActive,
    h'.overrun.trans h.overrun⟩
  fault := steady_closed.fault
  buffers := fun k data buf mem => (steady_messaging.buffers k data buf mem).level
  calls := fun k l hl => (steady_messaging.calls k l hl).level
  reply := fun k rs => (steady_messaging.reply k rs).level
  pcb := fun k pid g h h' h'' => (steady_messaging.pcb k pid g h h' h'').level
  plain := fun h => (steady_paging.plain h).level
  pages := fun k pid g hg => (steady_paging.pages k pid g hg).level
  inc := fun _ _ => ⟨rfl, rfl, rfl⟩
  elffile := fun _ _ _ => ⟨rfl, rfl, rfl⟩
  slot := fun _ _ => ⟨rfl, rfl, rfl⟩

theorem continueElfload_passes (hc : CallsSettle M c) (hf : Fit k)
    (hactive : k.requestActive = true) (hreq : k.requests = .elfload er :: rest) :
    Passes (continueElfload c er vfsRval) k := by
  have h : Staging (.elfload er) k k := ⟨(Steady.refl k).carries, hactive, rest, hreq⟩
  have hsame : ∀ er', ∀ pr₁, Request.elfload er = .swapin pr₁ →
      ∃ pr₂, Request.elfload er' = .swapin pr₂ ∧ pr₂.pid = pr₁.pid ∧ pr₂.addr = pr₁.addr :=
    fun er' pr₁ heq => by simp at heq
  have hend : ∀ rval, Passes (finishElfload c rval) k := fun rval =>
    (finishElfload_ends hc hf hactive).passes
  unfold continueElfload
  split
  · rw [Passes, wp_ite]
    refine ⟨fun _ => hend _, fun _ => Ends.passes ?_⟩
    refine wp_bind.mpr (wp_get.mpr (wp_bind.mpr (wp_set.mpr ?_)))
    have h₁ : Staging (.elfload er) k { k with
        copyInOutData := Function.update k.copyInOutData k.virtualPager 0 } :=
      ⟨(steady_messaging.buffers k _ k.copyInOutBuffer k.memory).carries, hactive, rest, hreq⟩
    refine h₁.bind (keeps_strncpyToBuffer steady_messaging _ _) fun _ k₂ h₂ => ?_
    exact h₂.bind (steady_vfsCall _) fun _ k₃ h₃ => h₃.setHead (hsame _)
  · rw [Passes, wp_bind, wp_assert]
    refine ⟨fun _ => ?_, fun _ => Harmless.blamed ⟨rfl, rfl⟩⟩
    rw [wp_bind, wp_get, wp_ite]
    refine ⟨fun _ => hend _, fun _ => Ends.passes ?_⟩
    exact h.bind (steady_vfsCall _) fun _ k₁ h₁ => h₁.setHead (hsame _)
  · rw [Passes, wp_bind, wp_get, wp_ite]
    refine ⟨fun _ => hend _, fun _ => ?_⟩
    rw [wp_bind]
    refine (keeps_loadProcess level_spawning _ k).mono (fun _ k₁ h₁ => ?_) fun _ _ h' => h'.2.blamed
    rw [wp_bind]
    refine (steady_vfsCall _ k₁).mono (fun _ k₂ h₂ => wp_modify.mpr ?_) fun _ _ h' => h'.2.blamed
    have hreq₂ : k₂.requests = .elfload er :: rest := (h₂.requests.trans h₁.requests).trans hreq
    refine ⟨fun ho => (h₂.overrun.trans h₁.overrun).trans ho, .of_active ?_ (by simp), ?_⟩
    · exact (h₂.requestActive.trans h₁.requestActive).trans hactive
    · rintro pid addr ⟨-, pr, hpr, hpid, haddr⟩
      rw [hreq] at hpr
      refine ⟨pr, ?_, hpid, haddr⟩
      rw [hreq₂]
      exact List.mem_cons_of_mem _ ((List.mem_cons.mp hpr).resolve_left (by simp))
  · exact hend _

/-! ## All messages -/

/-- The pid a load reserves belongs to nobody before and after. -/
theorem reservePid_steady (k : Kernel) :
    Wp reservePid k (fun _ k' => Steady k k') (fun f _ => Harmless f) := by
  unfold reservePid getNextPid processExists
  rw [wp_bind, wp_bind, wp_get, wp_bind, wp_set]
  have hst : Steady k { k with nextPid := getNextPidLoop k k.nextPid 257 k.nextPid true } :=
    ⟨rfl, rfl, rfl, fun _ h => h⟩
  split
  · rw [wp_pure, wp_bind, wp_bind, wp_get, wp_bind, wp_assert]
    refine ⟨fun _ => ?_, fun _ => ⟨rfl, rfl⟩⟩
    rw [wp_pure, wp_bind, wp_assert]
    refine ⟨fun _ => ?_, fun _ => ⟨rfl, rfl⟩⟩
    rw [wp_bind, wp_modify, wp_pure]
    exact hst.trans ⟨rfl, rfl, rfl, dead_setSlot fun _ => rfl⟩
  · rw [wp_pure]
    exact wp_pure.mpr hst

theorem steady_answering : Answering Steady Harmless where
  toDeleting := steady_deleting
  heap := fun _ _ _ => steady_updProcess

theorem processCreate_passes {parent : Pid} {fdout fderr fdin : Int} (hc : CallsSettle M c)
    (hf : Fit k) (hset : Settled k) : Passes (processCreate c parent fdout fderr fdin) k := by
  have hreserve : Wp reservePid k (fun _ k₁ => Served M true k k₁ ∧ Steady k k₁) Blamed :=
    ((reservePid_quiet (M := M) (b := true)).and (reservePid_steady k)).mono
      (fun _ _ h => ⟨h.1.served hf.shape, h.2⟩) fun _ _ h => h.2.blamed
  refine Settles.passes (M := M) ?_
  unfold processCreate
  refine wp_bind.mpr (hreserve.imp fun child k₁ h₁ => Settles.after h₁.1 h₁.2.carries ?_)
  have hset₁ := hset.of_steady h₁.2
  split
  · exact .of_keeps (keeps_syscallReply steady_messaging _ _)
      (.of_keeps (keeps_syscallReply idle_messaging _ _) h₁.1.shape) hset₁
  · rw [Settles, wp_bind, wp_derefProcess]
    refine ⟨fun _ => .unwatched rfl, fun _ => .unwatched rfl, fun p hp => ?_⟩
    rw [wp_bind, wp_get]
    exact queueRequest_settles hc (h₁.1.fit hf) hset₁ rfl

theorem copyStart_passes {addr size rights : Nat} {append : Bool} {callback : Callback}
    (hc : CallsSettle M c) (hf : Fit k) (hset : Settled k) :
    Passes (copyStart c pid addr size append rights callback) k := by
  refine Settles.passes (M := M) ?_
  unfold copyStart allocPagerRequest
  refine .bind_steady (keeps_buffers steady_messaging)
    (.of_keeps (keeps_buffers idle_messaging) hf.shape) ?_
  intro _ k₁ h₁ hst
  rw [Settles, wp_bind, wp_bind, wp_derefProcess]
  refine ⟨fun _ => .unwatched rfl, fun _ => .unwatched rfl, fun p hp => ?_⟩
  rw [wp_pure]
  exact pager_settles hc (h₁.fit hf) (hset.of_steady hst)

theorem vfsHandler_passes {rval : Int} (hc : CallsSettle M c) (hf : Fit k)
    (hactive : k.requestActive = true) : Passes (vfsHandler c rval) k := by
  unfold vfsHandler
  rw [Passes, wp_bind, wp_requestsPeek]
  refine ⟨fun _ => .unwatched rfl, fun r rest hreq => ?_⟩
  cases r with
  | swapout pr => exact (continueSwapout_ends hc hf hactive hreq).passes
  | swapin pr => exact (continueSwapin_ends hc hf hactive hreq).passes
  | elfload er => exact continueElfload_passes hc hf hactive hreq

/-- **Every message settles the queue.** -/
theorem handleWith_passes (hc : CallsSettle M c) (hf : Fit k) (hset : Settled k)
    (hen : Enabled k e) : Passes (handleWith c e) k := by
  have hother : ∀ {e : Event}, e.onQueue = false → Passes (handleWith c e) k := fun he =>
    Ends.passes ((keeps_handleWith steady_answering he k).mono
      (fun _ _ h => ⟨h.carries, hset.of_steady h⟩) fun _ _ h => h.2.blamed)
  cases e with
  | pagefault pid addr rights =>
    unfold handleWith allocPagerRequest
    rw [Passes, wp_bind, wp_bind, wp_derefProcess]
    refine ⟨fun _ => .unwatched rfl, fun _ => .unwatched rfl, fun p hp => ?_⟩
    rw [wp_pure]
    exact (pager_settles hc hf hset).passes
  | copyin pid src size append | copyout pid dst size append => exact copyStart_passes hc hf hset
  | vfsReply rval buffer =>
    unfold handleWith
    rw [Passes, wp_bind]
    refine modify_eq.imp fun _ k₁ h₁ => ?_
    have hst : Steady k k₁ := by rw [h₁]; exact steady_messaging.buffers k _ _ _
    have hf₁ : Fit k₁ := by
      refine ⟨hf.shape.of_eq hst.requests hst.requestActive, ?_⟩
      rw [h₁]
      exact hf.inv
    refine (vfsHandler_passes hc hf₁ (hst.requestActive.trans hen)).imp fun _ k' h => ?_
    exact ⟨h.overrun ∘ hst.carries.overrun, h.settled, fun pid addr ho =>
      h.kept pid addr (hst.carries.orphan pid addr ho)⟩
  | processCreate pid fdout fderr fdin => exact processCreate_passes hc hf hset
  | moremem | memloc | memuse | swapuse | physuse | processWait | processDelete | debugFlush
  | exception => exact hother rfl

theorem handle_passes (n : Nat) (hf : Fit k) (hset : Settled k) (hen : Enabled k e) :
    Passes (handle n e) k :=
  handleWith_passes (M := ∅) (calls_settle ∅ n) hf hset hen

/-! ## Runs -/

theorem Sound.fit (h : Sound M k) : Fit k := ⟨h.shape, h.inv⟩

/-- **The queue is settled in every reachable state.** -/
theorem Reachable.settled {C : Kernel → Event → Prop} (h : Reachable M C k) : Settled k := by
  induction h with
  | boot hb =>
    obtain ⟨hreq, hactive⟩ := hb.idle
    exact .inr (by simp [hreq, hactive])
  | step hprev _ hstep ih =>
    obtain ⟨hen, n, hrun⟩ := hstep
    exact ((handle_passes n hprev.sound.fit ih hen).ok hrun).settled

theorem Reachable.passes {C : Kernel → Event → Prop} (h : Reachable M C k)
    (hen : Enabled k e) (n : Nat) : Passes (handle n e) k :=
  handle_passes n h.sound.fit h.settled hen

end Sos
