import Sos.Properties.Replies
import Sos.Queue.Handle

/-!
# Requests of processes that have died

`processDelete` leaves the requests of the process in the queue. No step of the queue deals with
them: every one looks the process up or falls through to a lookup, and faults, or goes on with the
transfer and leaves the request where it is. So a request whose process has died stays in the queue
until its pid is given to another process, and the queue stops when it gets to it.
-/

namespace Sos

open Hoare

variable {k k' : Kernel} {c : Calls} {pid : Pid} {addr : Nat} {pr : PagerRequest}
variable {rest : List Request} {M : Set Nat}

/-- The request is still at the head of the queue. -/
def Lingers (pr : PagerRequest) (rest : List Request) (k : Kernel) : Prop :=
  ∃ pr', k.requests = .swapin pr' :: rest ∧ pr'.pid = pr.pid ∧ pr'.addr = pr.addr

/-- The computation faults, or leaves the request at the head of the queue. -/
abbrev Stalls {α : Type} (pr : PagerRequest) (rest : List Request) (m : PagerM α) (k : Kernel) :
    Prop :=
  Wp m k (fun _ k' => Lingers pr rest k') fun _ _ => True

/-- The computation does not come to an end. -/
abbrev Breaks {α : Type} (m : PagerM α) (k : Kernel) : Prop :=
  Wp m k (fun _ _ => False) fun _ _ => True

theorem Breaks.stalls {α : Type} {m : PagerM α} (h : Breaks m k) : Stalls pr rest m k :=
  h.imp fun _ _ h => h.elim

theorem breaks_bind {α β : Type} {m : PagerM α} {f : α → PagerM β} (hf : ∀ a k', Breaks (f a) k') :
    Breaks (m >>= f) k :=
  wp_bind.mpr (Wp.trivial.imp fun a k' _ => hf a k')

theorem Breaks.bind {α β : Type} {m : PagerM α} {f : α → PagerM β} (h : Breaks m k) :
    Breaks (m >>= f) k :=
  wp_bind.mpr (h.imp fun _ _ h => h.elim)

theorem Stalls.of_keeps {α : Type} {m : PagerM α} (hm : Keeps Steady Harmless m)
    (h : Lingers pr rest k) : Stalls pr rest m k := by
  refine (hm k).mono (fun _ k' hst => ?_) fun _ _ _ => trivial
  obtain ⟨pr', hreq, hsame⟩ := h
  exact ⟨pr', hst.requests.trans hreq, hsame⟩

theorem Stalls.bind {α β : Type} {m : PagerM α} {f : α → PagerM β} (hm : Keeps Steady Harmless m)
    (h : Lingers pr rest k) (hf : ∀ a k', Lingers pr rest k' → Stalls pr rest (f a) k') :
    Stalls pr rest (m >>= f) k :=
  wp_bind.mpr ((Stalls.of_keeps hm h).imp hf)

theorem Stalls.setHead {pr' : PagerRequest} (h : Lingers pr rest k) (hpid : pr'.pid = pr.pid)
    (haddr : pr'.addr = pr.addr) : Stalls pr rest (setHead (.swapin pr')) k := by
  obtain ⟨_, hreq, -⟩ := h
  refine wp_modify.mpr ⟨pr', ?_, hpid, haddr⟩
  rw [hreq, List.tail_cons]

/-! ## Looking up a process that is not there -/

theorem derefProcess_breaks (h : (k.sosProcs pid).live = false) : Breaks (derefProcess pid) k := by
  refine wp_derefProcess.mpr ⟨fun _ => trivial, fun _ => trivial, fun p hp => ?_⟩
  rw [hp] at h
  exact absurd h (by simp [Slot.live])

theorem lookupEntry_breaks (h : (k.sosProcs pid).live = false) : Breaks (lookupEntry pid addr) k :=
  Breaks.bind (derefProcess_breaks h)

/-! ## The steps of the queue -/

theorem peekSwapin_breaks {site : Site} {f : PagerRequest → PagerM Unit}
    (hreq : k.requests = .swapin pr :: rest) (hf : Breaks (f pr) k) :
    Breaks (peekSwapin site >>= f) k := by
  refine wp_bind.mpr (wp_peekSwapin.mpr ⟨fun _ => trivial, fun _ _ _ _ => trivial, ?_⟩)
  intro pr' rest' hr
  obtain ⟨heq, -⟩ := List.cons.inj (hreq.symm.trans hr)
  injection heq with heq
  rw [← heq]
  exact hf

section Head

variable (hreq : k.requests = .swapin pr :: rest) (hdead : (k.sosProcs pr.pid).live = false)
include hreq hdead

theorem startPagerRequest_breaks : Breaks (startPagerRequest c) k := by
  unfold startPagerRequest
  refine wp_bind.mpr (wp_requestsPeek.mpr ⟨fun _ => trivial, fun r rest' hr => ?_⟩)
  obtain ⟨rfl, -⟩ := List.cons.inj (hreq.symm.trans hr)
  exact Breaks.bind (lookupEntry_breaks hdead)

theorem startSwapin_breaks : Breaks startSwapin k := by
  unfold startSwapin
  refine wp_bind.mpr ((keeps_frameAlloc steady_paging k).mono (fun f k₁ h₁ => ?_)
    fun _ _ _ => trivial)
  refine wp_bind.mpr (modify_eq.imp fun _ k₂ h₂ => ?_)
  have hreq₂ : k₂.requests = .swapin pr :: rest := by
    rw [h₂]
    exact h₁.requests.trans hreq
  have hdead₂ : (k₂.sosProcs pr.pid).live = false := by
    rw [h₂]
    exact h₁.dead _ hdead
  exact peekSwapin_breaks hreq₂ (Breaks.bind (lookupEntry_breaks hdead₂))

theorem finishSwapin_breaks : Breaks (finishSwapin c) k := by
  unfold finishSwapin
  refine peekSwapin_breaks hreq ?_
  rw [Breaks, wp_bind, wp_get]
  split
  · exact breaks_bind fun _ _ => breaks_bind fun _ _ => breaks_bind fun _ _ =>
      breaks_bind fun _ _ => breaks_bind fun _ _ => wp_throw.mpr trivial
  · exact wp_throw.mpr trivial
  · next p hp => simp [hp, Slot.live] at hdead

theorem finishSwapelf_breaks : Breaks (finishSwapelf c) k := by
  unfold finishSwapelf
  refine wp_bind.mpr (wp_requestsPeek.mpr ⟨fun _ => trivial, fun r rest' hr => ?_⟩)
  obtain ⟨rfl, -⟩ := List.cons.inj (hreq.symm.trans hr)
  exact Breaks.bind (derefProcess_breaks hdead)

theorem continueSwapin_stalls (vfsRval : Int) : Stalls pr rest (continueSwapin c pr vfsRval) k := by
  have h : Lingers pr rest k := ⟨pr, hreq, rfl, rfl⟩
  unfold continueSwapin
  split
  · refine .bind (steady_swapfileSetFd _ _) h fun _ k₁ h₁ => ?_
    refine .bind (keeps_lookupEntry steady_paging _ _) h₁ fun entry k₂ h₂ => ?_
    refine .bind (keeps_swapfileGetFd steady_closed _) h₂ fun fd k₃ h₃ => ?_
    exact .bind (steady_vfsCall _) h₃ fun _ k₄ h₄ => .setHead h₄ rfl rfl
  · exact .bind (steady_readRest _) h fun _ k₁ h₁ => .setHead h₁ rfl rfl
  · refine .bind (steady_assert ⟨rfl, rfl⟩) h fun _ k₁ h₁ => ?_
    refine .bind (steady_assert ⟨rfl, rfl⟩) h₁ fun _ k₂ h₂ => ?_
    refine .bind (keeps_buffers steady_messaging) h₂ fun _ k₃ h₃ => ?_
    have hset : Stalls pr rest (setHead (.swapin { pr with offset := pr.offset + vfsRval })) k₃ :=
      .setHead h₃ rfl rfl
    refine wp_bind.mpr (hset.imp fun _ k₄ h₄ => ?_)
    refine Stalls.bind (steady_assert ⟨rfl, rfl⟩) h₄ fun _ k₅ h₅ => ?_
    rw [Stalls, wp_ite]
    refine ⟨fun _ => ?_, fun _ => ?_⟩
    · exact Stalls.bind (steady_swapfileClose _) h₅ fun _ k₆ h₆ => .setHead h₆ rfl rfl
    · exact Stalls.of_keeps (steady_readRest _) h₅
  · split
    · exact wp_throw.mpr trivial
    · exact (finishSwapin_breaks hreq hdead).stalls
    · exact (finishSwapelf_breaks hreq hdead).stalls
  · exact wp_throw.mpr trivial

end Head

theorem finishSwapout_breaks {po : PagerRequest}
    (hreq : k.requests = .swapout po :: .swapin pr :: rest)
    (hdead : (k.sosProcs pr.pid).live = false) : Breaks (finishSwapout c) k := by
  unfold finishSwapout
  refine wp_bind.mpr (wp_requestsPeek.mpr ⟨fun _ => trivial, fun r rest' hr => ?_⟩)
  obtain ⟨rfl, rfl⟩ := List.cons.inj (hreq.symm.trans hr)
  refine wp_bind.mpr (wp_requestsUnshift (fun _ => trivial) fun r rest' hr k₁ h₁ => ?_)
  obtain ⟨-, rfl⟩ := List.cons.inj (hreq.symm.trans hr)
  refine wp_bind.mpr ((keeps_pagerFrameFree steady_paging _ _ k₁).mono (fun _ k₂ h₂ => ?_)
    fun _ _ _ => trivial)
  have hdead₂ : (k₂.sosProcs pr.pid).live = false := h₂.dead _ (by rw [h₁]; exact hdead)
  refine peekSwapin_breaks (h₂.requests.trans (by rw [h₁])) ?_
  rw [Breaks, wp_bind, wp_get]
  split
  · exact breaks_bind fun _ _ => breaks_bind fun _ _ => wp_throw.mpr trivial
  · exact wp_throw.mpr trivial
  · next p hp => simp [hp, Slot.live] at hdead₂

/-! ## Runs -/

/-- The process has not come back. -/
def StepWithout (pid : Pid) (k k' : Kernel) : Prop :=
  (∃ e, Step k e k') ∧ (k'.sosProcs pid).live = false

theorem Reachable.orphan_step {C : Kernel → Event → Prop} (h : Reachable M C k)
    (ho : k.Orphan pid addr) (hstep : StepWithout pid k k') : k'.Orphan pid addr := by
  obtain ⟨⟨e, hen, n, hrun⟩, hdead⟩ := hstep
  exact ⟨hdead, ((h.passes hen n).ok hrun).kept pid addr ho⟩

/-- **Requests of dead processes are never removed.** A request whose process no longer exists stays
in the queue for as long as its pid is not given to a new process. Every step of the queue that
meets it at the head faults or leaves it there. -/
theorem dead_requests_never_removed (h : Reachable M (fun _ _ => True) k)
    (ho : k.Orphan pid addr) :
    (∀ k', Relation.ReflTransGen (StepWithout pid) k k' → k'.Orphan pid addr) ∧
      (∀ k₁ pr rest, k₁.requests = .swapin pr :: rest → (k₁.sosProcs pr.pid).live = false →
        ∀ c v, Breaks (startPagerRequest c) k₁ ∧ Breaks startSwapin k₁ ∧
          Stalls pr rest (continueSwapin c pr v) k₁ ∧ Breaks (finishSwapin c) k₁ ∧
          Breaks (finishSwapelf c) k₁) ∧
      ∀ k₁ po pr rest, k₁.requests = .swapout po :: .swapin pr :: rest →
        (k₁.sosProcs pr.pid).live = false → ∀ c, Breaks (finishSwapout c) k₁ := by
  refine ⟨fun k' hrun => ?_, fun k₁ pr rest hreq hdead c v => ?_, fun k₁ po pr rest hreq hdead c =>
    finishSwapout_breaks hreq hdead⟩
  · suffices hboth : Reachable M (fun _ _ => True) k' ∧ k'.Orphan pid addr from hboth.2
    induction hrun with
    | refl => exact ⟨h, ho⟩
    | tail _ hstep ih =>
      obtain ⟨e, he⟩ := hstep.1
      exact ⟨.step ih.1 trivial he, ih.1.orphan_step ih.2 hstep⟩
  · exact ⟨startPagerRequest_breaks hreq hdead, startSwapin_breaks hreq hdead,
      continueSwapin_stalls hreq hdead v, finishSwapin_breaks hreq hdead,
      finishSwapelf_breaks hreq hdead⟩

/-- The program of `programRun` runs as process 3. Its fault on the page with its code waits behind
another load that process 2 has asked for, and it is killed. -/
def orphaningRun : List Event :=
  programRun.dropLast ++ [.processCreate 2 0 0 0, .pagefault 3 0x20000 4, .exception 3]

/-- The orphans of a state at an address, as they are found in the queue. -/
def Kernel.orphaned (k : Kernel) (pid : Pid) (addr : Nat) : Bool :=
  !(k.sosProcs pid).live && k.requests.any fun
    | .swapin pr => pr.pid = pid && pr.addr = addr
    | _ => false

theorem Kernel.orphan_of_orphaned (h : k.orphaned pid addr = true) : k.Orphan pid addr := by
  obtain ⟨hdead, hqueue⟩ := (Bool.and_eq_true ..).mp h
  obtain ⟨r, hr, hmatch⟩ := List.any_eq_true.mp hqueue
  refine ⟨by simpa using hdead, ?_⟩
  cases r with
  | swapin pr => exact ⟨pr, hr, by simpa using hmatch⟩
  | swapout _ | elfload _ => simp at hmatch

theorem dead_requests_never_removed_orphaningRun :
    ∃ k, Reachable (coldFrames 40) (fun _ _ => True) k ∧ k.Orphan 3 0x20000 ∧
      ∀ k', Relation.ReflTransGen (StepWithout 3) k k' → k'.Orphan 3 0x20000 := by
  obtain ⟨k, hr, hobs⟩ := reachable_of_run 40 20 [[appRegion]] (fun _ _ => True) orphaningRun
    (fun k => k.orphaned 3 0x20000) (v := true) (by decide) (by decide +kernel)
  have ho := Kernel.orphan_of_orphaned hobs
  exact ⟨k, hr, ho, (dead_requests_never_removed hr ho).1⟩

/-- When the load has failed, the queue goes on with the request of the dead process and looks up
its page table. -/
theorem orphaningRun_faults :
    ∃ k k', Reachable (coldFrames 40) (fun _ _ => True) k ∧ k.Orphan 3 0x20000 ∧
      Enabled k (.vfsReply (-1) fun _ => 0) ∧
      handle 20 (.vfsReply (-1) fun _ => 0) k = .error .nullProcess k' := by
  obtain ⟨k, hr, hobs⟩ := reachable_of_run 40 20 [[appRegion]] (fun _ _ => True) orphaningRun
    (fun k => (k.orphaned 3 0x20000, k.requestActive, (outcome 20 (.vfsReply (-1) fun _ => 0) k).1))
    (v := (true, true, some .nullProcess)) (by decide) (by decide +kernel)
  obtain ⟨ho, hrest⟩ := Prod.mk.inj hobs
  obtain ⟨hactive, hfault⟩ := Prod.mk.inj hrest
  obtain ⟨k', hrun⟩ := exists_error_of_outcome hfault
  exact ⟨k, k', hr, Kernel.orphan_of_orphaned ho, hactive, hrun⟩

end Sos
