import Sos.Simulation.Handle

/-!
# A settled queue

Between two messages a request is active exactly when the queue is not empty. While a message is
handled this is so whenever a request is queued, with one exception: a request that is restarted
because a frame has become free has left the queue, nothing is active any more, and others may wait
behind it. If such a request cannot be served at once (`Kernel.overruns`) the assertions of
`queueRequest` fail. `Settled` is the invariant as far as this has not happened, and what is shown
of every function is that it settles the queue, and that no other assertion on `requestActive` or on
the list of resident pages fails (`Blamed`).

The functions carry the requests of dead processes along (`Carries`): nothing takes them off.
-/

namespace Sos

open Hoare

variable {k k' k'' : Kernel} {c : Calls} {pid : Pid} {pr : PagerRequest} {r : Request}
variable {M : Set Nat} {α β : Type}

/-! ## Functions that leave the queue alone -/

/-- The queue is as it was, and no process has come. -/
structure Steady (k k' : Kernel) : Prop where
  requests : k'.requests = k.requests
  requestActive : k'.requestActive = k.requestActive
  overrun : k'.overrun = k.overrun
  dead : ∀ q, (k.sosProcs q).live = false → (k'.sosProcs q).live = false

/-- Faults other than the assertions on the queue and on the list of resident pages. -/
abbrev Harmless (f : Fault) : Prop := f.onQueue = false ∧ f.onEmpty = false

theorem Steady.refl (k : Kernel) : Steady k k := ⟨rfl, rfl, rfl, fun _ h => h⟩

theorem Steady.trans (h : Steady k k') (h' : Steady k' k'') : Steady k k'' :=
  ⟨h'.requests.trans h.requests, h'.requestActive.trans h.requestActive,
    h'.overrun.trans h.overrun, fun q hq => h'.dead q (h.dead q hq)⟩

theorem dead_setSlot {s : Slot} (hs : (k.sosProcs pid).live = false → s.live = false) (q : Pid)
    (h : (k.sosProcs q).live = false) : ((k.setSlot pid s).sosProcs q).live = false := by
  by_cases hq : q = pid
  · subst hq
    rw [setSlot_self]
    exact hs h
  · rw [setSlot_of_ne hq]
    exact h

theorem steady_updProcess {g : Process → Process} : Steady k (k.updProcess pid g) := by
  refine updProcess_cases (.refl k) fun p hs => ⟨rfl, rfl, rfl, dead_setSlot fun h => ?_⟩
  rw [hs] at h
  simp at h

theorem steady_deleting : Deleting Steady Harmless where
  refl := .refl
  trans := .trans
  fault := fun _ h => (Fault.of_not_watched h).2
  buffers := fun _ _ _ _ => ⟨rfl, rfl, rfl, fun _ h => h⟩
  calls := fun _ _ _ => ⟨rfl, rfl, rfl, fun _ h => h⟩
  reply := fun _ _ => ⟨rfl, rfl, rfl, fun _ h => h⟩
  pcb := fun _ _ _ _ _ _ => steady_updProcess
  plain := fun {k k'} h => by
    unfold Plain at h
    rw [h]
    exact ⟨rfl, rfl, rfl, fun _ h => h⟩
  pages := fun _ _ _ _ => steady_updProcess
  nextPid := fun _ _ => ⟨rfl, rfl, rfl, fun _ h => h⟩
  remove := fun _ _ _ _ => ⟨rfl, rfl, rfl, dead_setSlot fun _ => rfl⟩
  forget := fun _ _ => ⟨rfl, rfl, rfl, fun _ h => h⟩

theorem steady_messaging : Messaging Steady Harmless := steady_deleting.toMessaging

theorem steady_paging : Paging Steady Harmless := steady_deleting.toPaging

theorem steady_closed : Closed Steady Harmless := steady_deleting.toClosed

theorem Repaged.dead (h : Repaged k k') {q : Pid} (hq : (k.sosProcs q).live = false) :
    (k'.sosProcs q).live = false := by
  rw [h.other q hq]
  exact hq

theorem Grow.steady (h : Grow k k') : Steady k k' :=
  ⟨h.requests, h.requestActive, by rw [h.rest], fun _ => (Repaged.of_grow h).dead⟩

theorem Entered.steady {f : Nat} (h : Entered pr f k k') : Steady k k' :=
  ⟨by rw [h.rest], by rw [h.rest], by rw [h.rest], fun _ => h.repaged.dead⟩

theorem Recorded.steady {page f : Nat} (h : Recorded pid page f k k') : Steady k k' :=
  ⟨by rw [h.rest], by rw [h.rest], by rw [h.rest], fun _ => (Repaged.of_core h.core).dead⟩

/-! ## The invariant -/

/-- A request is active exactly when the queue is not empty, as long as there has been no
overrun. -/
def Settled (k : Kernel) : Prop :=
  k.overrun = true ∨ (k.requestActive = true ↔ k.requests ≠ [])

/-- Requests wait and none is active. -/
def Paused (k : Kernel) : Prop :=
  k.overrun = true ∨ k.requestActive = false ∧ k.requests ≠ []

/-- What a fault leaves: it is never the assertion of `deleteAllocList`, and one on `requestActive`
only after an overrun. -/
def Blamed (f : Fault) (k : Kernel) : Prop :=
  f.onEmpty = false ∧ (f.onQueue = true → k.overrun = true)

/-- A request for a page of a process that is not there is in the queue. -/
def Kernel.Orphan (k : Kernel) (pid : Pid) (addr : Nat) : Prop :=
  (k.sosProcs pid).live = false ∧ ∃ pr, .swapin pr ∈ k.requests ∧ pr.pid = pid ∧ pr.addr = addr

/-- The requests of dead processes are still there, and no process has come. -/
structure Carries (k k' : Kernel) : Prop where
  overrun : k.overrun = true → k'.overrun = true
  dead : ∀ q, (k.sosProcs q).live = false → (k'.sosProcs q).live = false
  orphan : ∀ pid addr, k.Orphan pid addr → k'.Orphan pid addr

/-- The mappings and the accounts are right, and the queue is in shape. -/
structure Fit (k : Kernel) : Prop where
  shape : Shape k
  inv : k.pool.Inv

theorem Harmless.blamed {f : Fault} (h : Harmless f) : Blamed f k :=
  ⟨h.2, fun hq => by simp [h.1] at hq⟩

theorem Blamed.unwatched {f : Fault} (h : f.watched = false) : Blamed f k :=
  Harmless.blamed (Fault.of_not_watched h).2

theorem Carries.of_subset (ho : k.overrun = true → k'.overrun = true)
    (hd : ∀ q, (k.sosProcs q).live = false → (k'.sosProcs q).live = false)
    (hr : ∀ pr, .swapin pr ∈ k.requests → (k.sosProcs pr.pid).live = false →
      .swapin pr ∈ k'.requests) : Carries k k' where
  overrun := ho
  dead := hd
  orphan := by
    rintro pid addr ⟨hdead, pr, hpr, rfl, rfl⟩
    exact ⟨hd _ hdead, pr, hr pr hpr hdead, rfl, rfl⟩

theorem Steady.carries (h : Steady k k') : Carries k k' :=
  .of_subset (fun ho => h.overrun.trans ho) h.dead fun pr hpr _ => by rw [h.requests]; exact hpr

theorem Carries.trans (h : Carries k k') (h' : Carries k' k'') : Carries k k'' where
  overrun := h'.overrun ∘ h.overrun
  dead := fun q hq => h'.dead q (h.dead q hq)
  orphan := fun pid addr ho => h'.orphan pid addr (h.orphan pid addr ho)

theorem Settled.of_steady (h : Settled k) (hs : Steady k k') : Settled k' := by
  unfold Settled
  rw [hs.overrun, hs.requestActive, hs.requests]
  exact h

theorem Paused.of_steady (h : Paused k) (hs : Steady k k') : Paused k' := by
  unfold Paused
  rw [hs.overrun, hs.requestActive, hs.requests]
  exact h

theorem Settled.of_active (ha : k.requestActive = true) (hr : k.requests ≠ []) : Settled k :=
  .inr ⟨fun _ => hr, fun _ => ha⟩

theorem Served.fit (h : Served M true k k') (hf : Fit k) : Fit k' := ⟨h.shape, h.steps.inv hf.inv⟩

/-- The queue alone has changed, and it is longer. -/
theorem Carries.of_append {l : List Request} :
    Carries k { k with requests := k.requests ++ l } :=
  .of_subset id (fun _ h => h) fun _ hpr _ => List.mem_append_left _ hpr

/-! ## Composing -/

/-- Programs that serve and settle the queue. -/
abbrev Settles (M : Set Nat) (m : PagerM α) (k : Kernel) : Prop :=
  Wp m k (fun _ k' => Served M true k k' ∧ Carries k k' ∧ Settled k') Blamed

namespace Settles

variable {m : PagerM α} {f : α → PagerM β}

theorem of_serves (hs : Serves M true m k)
    (hm : Wp m k (fun _ k' => Carries k k' ∧ Settled k') Blamed) : Settles M m k :=
  (hs.and hm).mono (fun _ _ h => ⟨h.1, h.2⟩) fun _ _ h => h.2

theorem of_keeps (hm : Keeps Steady Harmless m) (hs : Serves M true m k) (hset : Settled k) :
    Settles M m k :=
  .of_serves hs ((hm k).mono (fun _ _ h => ⟨h.carries, hset.of_steady h⟩) fun _ _ h => h.2.blamed)

/-- What follows a change that serves and carries. -/
theorem after (hs : Served M true k k') (hc : Carries k k') (hm : Settles M m k') :
    Wp m k' (fun _ k'' => Served M true k k'' ∧ Carries k k'' ∧ Settled k'') Blamed :=
  hm.imp fun _ _ h => ⟨hs.trans h.1, hc.trans h.2.1, h.2.2⟩

theorem bind (hm : Settles M m k)
    (hf : ∀ a k', Served M true k k' → Settled k' → Settles M (f a) k') :
    Settles M (m >>= f) k :=
  wp_bind.mpr (hm.imp fun a k' h => (hf a k' h.1 h.2.2).after h.1 h.2.1)

theorem bind_steady (hm : Keeps Steady Harmless m) (hs : Serves M true m k)
    (hf : ∀ a k', Served M true k k' → Steady k k' → Settles M (f a) k') :
    Settles M (m >>= f) k :=
  wp_bind.mpr ((hs.and (hm k)).mono (fun a k' h => (hf a k' h.1 h.2).after h.1 h.2.carries)
    fun _ _ h => h.2.2.blamed)

end Settles

/-- What is assumed of the functions called back. A request that is restarted while others wait goes
through the pages ahead of it without queueing again; its process may turn out not to have one of
them, and then nothing is active when it is done. -/
structure CallsSettle (M : Set Nat) (c : Calls) : Prop where
  serves : CallsServe M true c
  startRequest : ∀ k, Fit k → Paused k → Settles M c.startRequest k
  pager : ∀ pr k, Fit k → Settled k → Settles M (c.pager pr) k
  restart : ∀ pr k p, Fit k → k.requestActive = false → k.requests ≠ [] →
    k.sosProcs pr.pid = .pcb p → k.framesFor p (k.grantedAhead p pr) →
    (pr.callback.copies → k.copyOffset pr.pid ≤ k.copySize pr.pid) →
    Wp (c.pager pr) k (fun _ k' => Served M true k k' ∧ Carries k k' ∧ (Settled k' ∨ Paused k') ∧
      (p.granted pr → Settled k')) Blamed

/-! ## Queueing -/

section Settles

variable (hc : CallsSettle M c)
include hc

theorem queueRequest_settles (hf : Fit k) (hset : Settled k)
    (hr : r.isSwapout = false) : Settles M (queueRequest c r) k := by
  refine .of_serves (queueRequest_serves hc.serves hr hf.shape) ?_
  unfold queueRequest
  rw [wp_bind, wp_get, wp_ite]
  refine ⟨fun hempty => ?_, fun hne => ?_⟩
  · have hnil : k.requests = [] := by simpa using hempty
    rw [wp_bind, wp_assert]
    refine ⟨fun hidle => ?_, fun hactive => ⟨rfl, fun _ => ?_⟩⟩
    · have hidle : k.requestActive = false := by simpa using hidle
      rw [wp_bind]
      refine modify_eq.imp fun _ k₁ h₁ => ?_
      have hfit₁ : Fit k₁ := by
        rw [h₁]
        refine ⟨.of_forall fun r' hr' => ?_, by rw [pool_append hr]; exact hf.inv⟩
        simp only [hnil, List.nil_append, List.mem_singleton] at hr'
        rw [hr']
        exact hr
      have hcarries : Carries k k₁ := by rw [h₁]; exact .of_append
      have hpaused : Paused k₁ := .inr (by rw [h₁]; exact ⟨hidle, by simp⟩)
      exact (hc.startRequest k₁ hfit₁ hpaused).imp fun _ _ h => ⟨hcarries.trans h.2.1, h.2.2⟩
    · have hactive : k.requestActive = true := by simpa using hactive
      exact hset.resolve_right fun h => h.mp hactive hnil
  · have hne : k.requests ≠ [] := by simpa using hne
    rw [wp_bind, wp_assert]
    refine ⟨fun hactive => wp_modify.mpr ⟨.of_append, .of_active hactive (by simp)⟩,
      fun hidle => ⟨rfl, fun _ => hset.resolve_right fun h => ?_⟩⟩
    rw [h.mpr hne] at hidle
    simp at hidle

/-! ## Serving a fault -/

theorem pagerAction_settles (hf : Fit k) (hset : Settled k) :
    Settles M (pagerAction c pr) k := by
  have hqueue : ∀ {k₁}, Served M true k k₁ → Steady k k₁ →
      Wp (queueRequest c (.swapin pr)) k₁ (fun _ k' => Carries k k' ∧ Settled k') Blamed :=
    fun hs h => (queueRequest_settles hc (hs.fit hf) (hset.of_steady h) rfl).imp fun _ _ h' =>
      ⟨h.carries.trans h'.2.1, h'.2.2⟩
  have hdone : ∀ {k'}, Steady k k' → Carries k k' ∧ Settled k' := fun h =>
    ⟨h.carries, hset.of_steady h⟩
  refine .of_serves (pagerAction_serves hc.serves hf.shape) (wp_pagerAction ?_)
  exact
    { null := fun _ => hdone (.refl k)
      placeholder := fun _ => .unwatched rfl
      delete := fun p hp _ => (keeps_processDelete steady_deleting pr.pid k).mono
        (fun _ _ h => hdone h) fun _ _ h => h.2.blamed
      noTable := fun _ _ => .unwatched rfl
      swap := fun p r k₁ ha _ => hqueue (ha.grow.served hf.shape) ha.grow.steady
      resident := fun p r k₁ k' ha _ _ he => hdone (ha.grow.steady.trans he.steady)
      direct := fun p r k₁ k' ha _ _ _ he => hdone (ha.grow.steady.trans he.steady)
      wait := fun p r k₁ ha _ _ _ _ => hqueue (ha.grow.served hf.shape) ha.grow.steady
      exhausted := fun p r k₁ k₂ ha _ _ _ hpos hempty hrec => by
        have hst : Steady k₁ { k₁ with exhausted := true } := ⟨rfl, rfl, rfl, fun _ h => h⟩
        exact hqueue (ha.recorded hf.shape hpos hempty hrec)
          (ha.grow.steady.trans (hst.trans hrec.steady))
      fresh := fun p r k₁ f rest k₂ k' ha _ _ _ _ _ _ hrec he => by
        have hst : Steady k₁ (k₁.frameTaken rest) := ⟨rfl, rfl, rfl, fun _ h => h⟩
        exact hdone (ha.grow.steady.trans (hst.trans (hrec.steady.trans he.steady)))
      badLimit := fun _ _ => .unwatched rfl
      badEntry := fun _ _ => .unwatched rfl
      badFrame := fun _ _ _ _ _ _ _ => .unwatched rfl }

/-! ## Continuations -/

theorem copyFinish_settles {size offset : Nat} (hf : Fit k)
    (hset : Settled k) : Settles M (copyFinish c pr size offset) k := by
  unfold copyFinish
  refine .bind_steady (keeps_buffers steady_messaging)
    (.of_keeps (keeps_buffers idle_messaging) hf.shape) ?_
  intro _ k₁ h₁ hst
  split
  · exact .of_keeps (keeps_syscallReplyV steady_messaging _ _)
      (.of_keeps (keeps_syscallReplyV idle_messaging _ _) h₁.shape) (hset.of_steady hst)
  · exact hc.pager _ _ (h₁.fit hf) (hset.of_steady hst)

theorem copyInContinue_settles (hf : Fit k) (hset : Settled k) :
    Settles M (copyInContinue c pr) k := by
  unfold copyInContinue
  refine .bind_steady (keeps_prepareData steady_paging _ _) (.of_prepareData hf.shape) ?_
  intro _ k₁ h₁ s₁
  refine wp_bind.mpr (wp_get.mpr ?_)
  refine Settles.bind_steady (keeps_lookupEntry steady_paging _ _) (.of_lookupEntry h₁.shape) ?_
  intro entry k₂ h₂ s₂
  refine .bind_steady (keeps_buffers steady_messaging)
    (.of_keeps (keeps_buffers idle_messaging) h₂.shape) ?_
  intro _ k₃ h₃ s₃
  exact copyFinish_settles hc (((h₁.trans h₂).trans h₃).fit hf)
    (hset.of_steady ((s₁.trans s₂).trans s₃))

theorem copyOutContinue_settles (hf : Fit k) (hset : Settled k) :
    Settles M (copyOutContinue c pr) k := by
  unfold copyOutContinue
  refine wp_bind.mpr (wp_get.mpr ?_)
  refine Settles.bind_steady (keeps_lookupEntry steady_paging _ _) (.of_lookupEntry hf.shape) ?_
  intro entry k₁ h₁ s₁
  refine .bind_steady (keeps_buffers steady_messaging)
    (.of_keeps (keeps_buffers idle_messaging) h₁.shape) ?_
  intro _ k₂ h₂ s₂
  refine .bind_steady (keeps_prepareData steady_paging _ _) (.of_prepareData h₂.shape) ?_
  intro _ k₃ h₃ s₃
  exact copyFinish_settles hc (((h₁.trans h₂).trans h₃).fit hf)
    (hset.of_steady ((s₁.trans s₂).trans s₃))

theorem runCallback_settles (hf : Fit k) (hset : Settled k) :
    Settles M (runCallback c pr) k := by
  unfold runCallback
  split
  · exact wp_throw.mpr (.unwatched rfl)
  · exact .of_keeps (keeps_pagerContinue steady_messaging pr)
      (.of_keeps (keeps_pagerContinue idle_messaging pr) hf.shape) hset
  · exact copyInContinue_settles hc hf hset
  · exact copyOutContinue_settles hc hf hset

/-- What `pager` does after its callback: the queue goes on if it has come to a halt. -/
theorem resume_settles (hf : Fit k) (hset : Settled k ∨ Paused k) :
    Settles M (do
      let k ← get
      if !k.requests.isEmpty && !k.requestActive then c.startRequest else pure ()) k := by
  rw [Settles, wp_bind, wp_get, wp_ite]
  refine ⟨fun h => ?_, fun h => wp_pure.mpr ⟨.refl hf.shape, (Steady.refl k).carries, ?_⟩⟩
  · have h : k.requestActive = false ∧ k.requests ≠ [] := by
      simp only [Bool.and_eq_true, Bool.not_eq_true', List.isEmpty_eq_false_iff] at h
      exact ⟨h.2, h.1⟩
    exact hc.startRequest k hf (.inr h)
  · rcases hset with hset | hp
    · exact hset
    · refine hp.imp id fun hp => absurd ?_ h
      simp [hp.1, hp.2]

theorem pager_settles (hf : Fit k) (hset : Settled k) :
    Settles M (pager c pr) k := by
  unfold pager
  refine .bind (pagerAction_settles hc hf hset) fun done k₁ h₁ hset₁ => ?_
  rw [Settles, wp_ite]
  refine ⟨fun _ => ?_, fun _ => wp_pure.mpr ⟨.refl h₁.shape, (Steady.refl k₁).carries, hset₁⟩⟩
  refine Settles.bind (runCallback_settles hc (h₁.fit hf) hset₁) fun _ k₂ h₂ hset₂ => ?_
  exact resume_settles hc (h₂.fit (h₁.fit hf)) (.inl hset₂)

end Settles

end Sos
