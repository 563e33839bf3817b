import Sos.Queue.Start

/-!
# Finishing requests

What finishes a request takes it off the queue and goes on with the next one. Only requests of
processes that are there are taken off: the branches for a process that has died fault in the end.
-/

namespace Sos

open Hoare

variable {k k' k₀ k₁ : Kernel} {c : Calls} {pr : PagerRequest} {r : Request}
variable {M : Set Nat} {rest : List Request}

/-! ## Composing what ends in a settled queue -/

theorem Settles.bind_ends {α β : Type} {m : PagerM α} {f : α → PagerM β} (hm : Settles M m k)
    (hcar : Carries k₀ k)
    (hf : ∀ a k', Served M true k k' → Carries k₀ k' → Settled k' → Ends k₀ (f a) k') :
    Ends k₀ (m >>= f) k :=
  wp_bind.mpr (hm.imp fun a k' h => hf a k' h.1 (hcar.trans h.2.1) h.2.2)

/-- The head is taken off and the next request started. -/
theorem dequeueRequest_ends (hc : CallsSettle M c) (hinv : k.pool.Inv)
    (hactive : k.requestActive = true) (hno : ∀ r ∈ k.requests, r.isSwapout = false)
    (hreq : k.requests = r :: rest) :
    Ends { k with requestActive := false, requests := rest } (dequeueRequest c) k := by
  unfold dequeueRequest
  rw [Ends, wp_bind, wp_get, wp_bind, wp_assert]
  refine ⟨fun _ => ?_, fun hidle => by simp [hactive] at hidle⟩
  rw [wp_bind]
  refine modify_eq.imp fun _ k₁ h₁ => ?_
  rw [wp_bind]
  refine wp_requestsUnshift (fun _ => .unwatched rfl) fun r' rest' hreq' k₂ h₂ => ?_
  have hrest : rest' = rest := by
    rw [h₁] at hreq'
    exact ((List.cons.inj (hreq.symm.trans hreq')).2).symm
  subst hrest
  have hk₂ : k₂ = { k with requestActive := false, requests := rest' } := by rw [h₂, h₁]
  have hpool : k₂.pool = k.pool := by
    rw [hk₂]
    exact pool_unshift (k := { k with requestActive := false }) hreq
      (hno r (by rw [hreq]; exact List.mem_cons_self ..))
  have hfit : Fit k₂ := by
    refine ⟨.of_forall fun r' hr' => hno r' ?_, by rw [hpool]; exact hinv⟩
    rw [hk₂] at hr'
    rw [hreq]
    exact List.mem_cons_of_mem _ hr'
  have hidle : k₂.requestActive = false := by rw [hk₂]
  rw [wp_bind, wp_get, wp_ite, ← hk₂]
  refine ⟨fun hempty => wp_pure.mpr ⟨(Steady.refl k₂).carries, .inr ⟨fun h => ?_, fun h => ?_⟩⟩,
    fun hne => ?_⟩
  · rw [hidle] at h
    simp at h
  · exact absurd (by simpa using hempty) h
  · exact (hc.startRequest k₂ hfit (.inr ⟨hidle, by simpa using hne⟩)).imp fun _ k' h => h.2

/-- The state in which the request at the head of `k₀` is being finished. -/
structure Finishing (pr : PagerRequest) (k₀ k : Kernel) : Prop where
  fit : Fit k
  requestActive : k.requestActive = true
  noSwapout : ∀ r ∈ k.requests, r.isSwapout = false
  carries : Carries k₀ k
  head : ∃ rest, k₀.requests = .swapin pr :: rest
  live : (k₀.sosProcs pr.pid).live = true
  appends : ∃ l, k.requests = k₀.requests ++ l

theorem Finishing.served (h : Finishing pr k₀ k) (hs : Served M true k k') (hcar : Carries k₀ k') :
    Finishing pr k₀ k' where
  fit := hs.fit h.fit
  requestActive := (hs.appends h.requestActive).1
  noSwapout := hs.all_not_swapout h.requestActive h.noSwapout
  carries := hcar
  head := h.head
  live := h.live
  appends := by
    obtain ⟨l, hl⟩ := h.appends
    obtain ⟨-, l', hl', -⟩ := hs.appends h.requestActive
    exact ⟨l ++ l', by rw [hl', hl, List.append_assoc]⟩

theorem Finishing.settled (h : Finishing pr k₀ k) : Settled k := by
  obtain ⟨rest, hreq₀⟩ := h.head
  obtain ⟨l, hl⟩ := h.appends
  exact .of_active h.requestActive (by rw [hl, hreq₀]; simp)

/-- A step on the way that leaves the queue alone. -/
theorem Finishing.bind_steady {α β : Type} {m : PagerM α} {f : α → PagerM β}
    (h : Finishing pr k₀ k) (hm : Keeps Steady Harmless m) (hs : Serves M true m k)
    (hf : ∀ a k', Finishing pr k₀ k' → Ends k₀ (f a) k') : Ends k₀ (m >>= f) k :=
  wp_bind.mpr ((hs.and (hm k)).mono
    (fun a k' h' => hf a k' (h.served h'.1 (h.carries.trans h'.2.carries)))
    fun _ _ h' => h'.2.2.blamed)

section Ends

variable (hc : CallsSettle M c)
include hc

theorem Finishing.action {β : Type} {f : PagerM β}
    (h : Finishing pr k₀ k) (hf : ∀ k', Finishing pr k₀ k' → Ends k₀ f k') :
    Ends k₀ (do discard <| pagerAction c pr; f) k := by
  rw [Ends, wp_bind, wp_discard]
  exact (pagerAction_settles hc h.fit h.settled).imp fun _ k' h' =>
    hf k' (h.served h'.1 (h.carries.trans h'.2.1))

theorem callback_dequeue_ends (h : Finishing pr k₀ k) :
    Ends k₀ (do runCallback c pr; dequeueRequest c) k := by
  refine (runCallback_settles hc h.fit h.settled).bind_ends h.carries fun _ k₁ hs hcar _ => ?_
  have h₁ := h.served hs hcar
  obtain ⟨rest, hreq₀⟩ := h.head
  obtain ⟨l, hl⟩ := h₁.appends
  have hreq₁ : k₁.requests = .swapin pr :: (rest ++ l) := by rw [hl, hreq₀, List.cons_append]
  have hcar₂ : Carries k₀ { k₁ with requestActive := false, requests := rest ++ l } := by
    refine .of_subset hcar.overrun hcar.dead fun pr' hpr' hdead => ?_
    rw [hreq₀] at hpr'
    rcases List.mem_cons.mp hpr' with heq | hmem
    · injection heq with heq
      rw [heq, h.live] at hdead
      simp at hdead
    · exact List.mem_append_left _ hmem
  exact (dequeueRequest_ends hc h₁.fit.inv h₁.requestActive h₁.noSwapout hreq₁).imp
    fun _ k' h' => ⟨hcar₂.trans h'.1, h'.2⟩

/-- The branches for a process that has died: the request is taken off, and then the pager
faults. -/
theorem orphan_faults (hf : Fit k) (hactive : k.requestActive = true)
    (hno : ∀ r ∈ k.requests, r.isSwapout = false) (hreq : k.requests = .swapin pr :: rest) :
    Ends k₀ (do
      runCallback c pr
      dequeueRequest c
      throw .nullProcess : PagerM Unit) k := by
  have hset : Settled k := .of_active hactive (by rw [hreq]; simp)
  rw [Ends, wp_bind]
  refine (runCallback_settles hc hf hset).imp fun _ k₁ h₁ => ?_
  obtain ⟨hactive₁, l, hl, -⟩ := h₁.1.appends hactive
  rw [wp_bind]
  refine (dequeueRequest_ends hc (h₁.1.fit hf).inv hactive₁ (h₁.1.all_not_swapout hactive hno)
    (by rw [hl, hreq, List.cons_append])).imp fun _ _ _ => ?_
  exact wp_throw.mpr (.unwatched rfl)

theorem giveFrame_ends {addr : Nat} (h : Finishing pr k₀ k) :
    Ends k₀ (giveFrame c pr addr) k := by
  refine h.action hc fun k₁ h₁ => ?_
  refine h₁.bind_steady (M := M) (keeps_lookupEntry steady_paging _ _)
    (.of_lookupEntry h₁.fit.shape) ?_
  intro entry k₂ h₂
  refine h₂.bind_steady (M := M) (keeps_buffers steady_messaging)
    (.of_keeps (keeps_buffers idle_messaging) h₂.fit.shape) ?_
  intro _ k₃ h₃
  refine h₃.bind_steady (M := M) (keeps_prepareData steady_paging _ _)
    (.of_prepareData h₃.fit.shape) ?_
  intro _ k₄ h₄
  rw [Ends, wp_bind, wp_get, wp_bind, wp_frameFree, wp_bind]
  refine modify_eq.imp fun _ k₅ hk₅ => ?_
  have hserved : Served M true k₄ k₅ := by
    refine Quiet.served ⟨.single ?_, by rw [hk₅]; rfl, by rw [hk₅]; rfl⟩ h₄.fit.shape
    rw [hk₅]
    exact unpin_step k₄.memory
  have hst : Steady k₄ k₅ := by
    rw [hk₅]
    exact ⟨rfl, rfl, rfl, fun _ h => h⟩
  exact callback_dequeue_ends hc (h₄.served hserved (h₄.carries.trans hst.carries))

/-! ## Finishing a swap-in -/

theorem finishSwapinFor_ends {P : Pool}
    (hreq : k.requests = .swapin pr :: rest) (hs : Shape k) (hactive : k.requestActive = true)
    (hlive : (k.sosProcs pr.pid).live = true) (hleave : Leaving true P pr k) (hinv : P.Inv) :
    Ends k (finishSwapinFor c pr) k := by
  unfold finishSwapinFor
  rw [Ends, wp_bind]
  refine wp_lookupEntry_looked (fun _ => .unwatched rfl)
    (fun _ => .unwatched rfl) (fun _ _ _ => .unwatched rfl) ?_
  intro k₁ hlooked
  have s₁ := hlooked.grow.steady
  have hentry : k.pool.pte pr.pid (pageNo (pageAlign pr.addr)) = k.entryOf pr := by
    rw [pageNo_pageAlign]
    rfl
  rw [hentry, wp_bind, wp_assert]
  refine ⟨fun hsw => ?_, fun _ => .unwatched rfl⟩
  rw [wp_bind]
  refine ((hleave.leaveDisk (M := M) hlooked hsw).and
    (keeps_leaveDisk steady_paging pr.pid (pageAlign pr.addr) (k.entryOf pr) k₁)).mono
    (fun _ k₂ h₂ => ?_) fun _ _ h => h.2.2.blamed
  obtain ⟨⟨hsteps, -⟩, s₂⟩ := h₂
  have hst := s₁.trans s₂
  have hno : ∀ r ∈ k₂.requests, r.isSwapout = false := by
    intro r hr
    rw [hst.requests, hreq] at hr
    rcases List.mem_cons.mp hr with rfl | hr
    · rfl
    · exact hs.tail r (by rw [hreq]; exact hr)
  have hfin : Finishing pr k k₂ :=
    { fit := ⟨.of_forall hno, Pool.Steps.inv hsteps hinv⟩
      requestActive := hst.requestActive.trans hactive
      noSwapout := hno
      carries := hst.carries
      head := ⟨rest, hreq⟩
      live := hlive
      appends := ⟨[], by rw [hst.requests, List.append_nil]⟩ }
  rw [wp_bind, wp_get, wp_ite]
  refine ⟨fun _ => giveFrame_ends hc hfin, fun hfull => ?_⟩
  exact startSwapout_ends hfin.fit (by omega) hfin.carries hfin.requestActive

/-- `finishSwapin` and the functions behind it. If the process is not there it faults, and this is
not the fault of the queue. -/
theorem finishSwapin_ends {P : Pool} (hs : Shape k) (hactive : k.requestActive = true)
    (hleave : ∀ pr rest, k.requests = .swapin pr :: rest → Leaving true P pr k) (hinv : P.Inv) :
    Ends k (finishSwapin c) k := by
  unfold finishSwapin
  rw [Ends, wp_bind, wp_peekSwapin]
  refine ⟨fun _ => .unwatched rfl, fun _ _ _ _ => .unwatched rfl,
    fun pr rest hreq => ?_⟩
  rw [wp_bind, wp_get]
  split
  · next hnull =>
    have hnull : k.sosProcs pr.pid = .null := hnull
    have hP : P = k.pool := by
      refine (hleave pr rest hreq).before.resolve_right ?_
      rintro ⟨⟨p, t, hp, -⟩, -⟩
      rw [hnull] at hp
      simp at hp
    rw [wp_bind, wp_get, wp_bind, wp_frameFree, wp_bind]
    refine modify_eq.imp fun _ k₁ hk₁ => ?_
    have hserved : Served M true k k₁ := by
      refine Quiet.served ⟨.single ?_, by rw [hk₁]; rfl, by rw [hk₁]; rfl⟩ hs
      rw [hk₁]
      exact unpin_step k.memory
    have hfit₁ : Fit k₁ := hserved.fit ⟨hs, hP ▸ hinv⟩
    have hreq₁ : k₁.requests = .swapin pr :: rest := by rw [hk₁]; exact hreq
    have hactive₁ : k₁.requestActive = true := by rw [hk₁]; exact hactive
    have hno : ∀ r ∈ k₁.requests, r.isSwapout = false := by
      intro r hr
      rw [hreq₁] at hr
      rcases List.mem_cons.mp hr with rfl | hr
      · rfl
      · exact hs.tail r (by rw [hreq]; exact hr)
    exact orphan_faults hc hfit₁ hactive₁ hno hreq₁
  · exact wp_throw.mpr (.unwatched rfl)
  · next p hp =>
    have hp : k.sosProcs pr.pid = .pcb p := hp
    exact finishSwapinFor_ends hc hreq hs hactive (by rw [hp]; rfl) (hleave pr rest hreq) hinv

theorem finishSwapelf_ends (hf : Fit k) (hactive : k.requestActive = true) :
    Ends k (finishSwapelf c) k := by
  refine wp_finishSwapelf (.unwatched rfl) fun pr hpr => ?_
  unfold finishSwapelfFor
  rw [wp_bind, wp_derefProcess]
  refine ⟨fun _ => .unwatched rfl, fun _ => .unwatched rfl, fun p hp => ?_⟩
  rw [wp_bind]
  refine wp_lookupEntry (fun _ => .unwatched rfl) (fun _ => .unwatched rfl)
    (fun _ _ _ => .unwatched rfl) ?_
  intro k₁ hgrow htable
  split
  · exact wp_throw.mpr (.unwatched rfl)
  · next r hr =>
    rw [wp_bind]
    refine (keeps_zeroTail idle_unwatched r pr.addr k₁).mono (fun _ k₂ hidle => ?_)
      fun _ _ h => .unwatched h.2
    rw [wp_bind]
    refine wp_setEntry fun k₃ h₃ => ?_
    have hst : Steady k k₃ := by
      refine hgrow.steady.trans (Steady.trans ⟨hidle.requests, hidle.requestActive, hidle.overrun,
        fun _ => (Repaged.of_idle hidle).dead⟩ ?_)
      rw [h₃]
      exact steady_updProcess
    refine (finishSwapin_ends (P := k₁.pool) hc (hf.shape.of_eq hst.requests hst.requestActive)
      (hst.requestActive.trans hactive) ?_ (Pool.Steps.inv (hgrow.steps M true) hf.inv)).imp
      fun _ k' h => ⟨hst.carries.trans h.1, h.2⟩
    intro pr' rest hreq'
    rw [hst.requests] at hreq'
    obtain rfl := hpr pr' rest hreq'
    exact leaving_of_unmarked hgrow htable hidle h₃ fun hb => by simp at hb

/-! ## Finishing a swap-out -/

theorem finishSwapoutFor_ends (h : Finishing pr k₀ k) :
    Ends k₀ (finishSwapoutFor c pr) k := by
  unfold finishSwapoutFor
  refine h.action hc fun k₁ h₁ => ?_
  refine h₁.bind_steady (M := M) (keeps_lookupEntry steady_paging _ _)
    (.of_lookupEntry h₁.fit.shape) ?_
  intro entry k₂ h₂
  refine h₂.bind_steady (M := M) (keeps_fillFrame steady_paging _)
    (fillFrame_quiet.imp fun _ _ hq => hq.served h₂.fit.shape) fun _ k₃ h₃ => ?_
  refine h₃.bind_steady (M := M) (keeps_prepareData steady_paging _ _)
    (.of_prepareData h₃.fit.shape) ?_
  exact fun _ k₄ h₄ => callback_dequeue_ends hc h₄

theorem finishSwapout_ends (hf : Fit k) (hactive : k.requestActive = true) :
    Ends k (finishSwapout c) k := by
  unfold finishSwapout
  rw [Ends, wp_bind, wp_requestsPeek]
  refine ⟨fun _ => .unwatched rfl, fun r rest hreq => ?_⟩
  cases r with
  | swapin pr | elfload er => exact wp_throw.mpr (.unwatched rfl)
  | swapout so =>
    dsimp only
    rw [wp_bind]
    refine wp_requestsUnshift (fun _ => .unwatched rfl) fun r' rest' hreq' k₁ h₁ => ?_
    have hrest : rest' = rest := by
      rw [hreq] at hreq'
      exact (List.cons.inj hreq').2.symm
    subst hrest
    rw [wp_bind]
    refine pagerFrameFree_some_spec (fun _ => .unwatched rfl)
      (fun _ _ => .unwatched rfl) fun _ k₂ hidle _ => ?_
    obtain ⟨hreq₂, hactive₂⟩ := written_rest hactive h₁ hidle
    have hno : ∀ r ∈ k₂.requests, r.isSwapout = false := fun r hr =>
      hf.shape.tail r (by rw [hreq]; rw [hreq₂] at hr; exact hr)
    have hfit₂ : Fit k₂ :=
      ⟨.of_forall hno, (written_step (M := M) (b := true) hreq h₁ hidle).inv hf.inv⟩
    have hcar₂ : Carries k k₂ := by
      refine .of_subset (fun ho => ?_) (fun q hq => ?_) fun pr hpr _ => ?_
      · rw [hidle.overrun]
        show k₁.overrun = _
        rw [h₁]
        exact ho
      · refine (Repaged.of_idle hidle).dead ?_
        show (k₁.sosProcs q).live = false
        rw [h₁]
        exact hq
      · rw [hreq] at hpr
        rw [hreq₂]
        exact (List.mem_cons.mp hpr).resolve_left (by simp)
    rw [wp_bind, wp_peekSwapin]
    refine ⟨fun _ => .unwatched rfl, fun _ _ _ _ => .unwatched rfl,
      fun pr rest₂ hreq₃ => ?_⟩
    rw [wp_bind, wp_get]
    split
    · exact orphan_faults hc hfit₂ hactive₂ hno hreq₃
    · exact wp_throw.mpr (.unwatched rfl)
    · next p hp =>
      have hp : k₂.sosProcs pr.pid = .pcb p := hp
      have hfin : Finishing pr k₂ k₂ :=
        { fit := hfit₂
          requestActive := hactive₂
          noSwapout := hno
          carries := (Steady.refl k₂).carries
          head := ⟨rest₂, hreq₃⟩
          live := by rw [hp]; rfl
          appends := ⟨[], by rw [List.append_nil]⟩ }
      exact (finishSwapoutFor_ends hc hfin).imp fun _ k' h => ⟨hcar₂.trans h.1, h.2⟩

end Ends

end Sos
