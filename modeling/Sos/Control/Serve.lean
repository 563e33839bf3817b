import Sos.Control.Orderly

/-!
# Serving requests, with an eye on descriptors

Every function between the arrival of a message and the answer to it is `Tame` and keeps the queue
orderly. The induction is on the depth of the mutual calls.
-/

namespace Sos

open Hoare

variable {k k' : Kernel} {c : Calls} {D : Set Int} {B : Set Request} {pr : PagerRequest}

/-! ## Serving a fault -/

theorem pagerAction_tames (hc : CallsTame D B c) (ho : Orderly D B k) :
    Tames D B (pagerAction c pr) k := by
  have hdelete : Tames D B (do discard <| processDelete pr.pid; return false) k :=
    Tames.bind_still (.discard (keeps_processDelete still_deleting _)) fun _ _ h =>
      Tames.pure (ho.of_still h)
  have hqueue : ∀ k', Still k k' → Tames D B (do queueRequest c (.swapin pr); return false) k' :=
    fun k' h => Tames.bind (queueRequest_tames hc (ho.of_still h)) fun _ _ h => Tames.pure h
  unfold pagerAction
  rw [Tames, wp_bind, wp_get]
  split
  · exact Tames.pure ho
  · exact wp_throw.mpr ⟨.refl k, rfl⟩
  · split
    · exact hdelete
    · rw [wp_ite]
      refine ⟨fun _ => hdelete, fun _ => ?_⟩
      refine Tames.bind_still (keeps_lookupEntry still_paging _ _) fun entry k₁ h₁ => ?_
      rw [Tames, wp_ite]
      refine ⟨fun _ => hqueue k₁ h₁, fun _ => ?_⟩
      rw [wp_ite]
      refine ⟨fun _ => Tames.of_keeps (keeps_enterFrame still_paging _ _) (ho.of_still h₁),
        fun _ => ?_⟩
      rw [wp_ite]
      refine ⟨fun _ => Tames.of_keeps (keeps_enterFrame still_paging _ _) (ho.of_still h₁),
        fun _ => ?_⟩
      refine Tames.bind_still (keeps_pagerFrameAlloc still_paging _ _) fun frame k₂ h₂ => ?_
      refine Tames.bind_still (keeps_assert still_closed rfl) fun _ k₃ h₃ => ?_
      have h := still_closed.trans h₁ (still_closed.trans h₂ h₃)
      rw [Tames, wp_ite]
      refine ⟨fun _ => hqueue k₃ h, fun _ => ?_⟩
      exact Tames.of_keeps (keeps_enterFrame still_paging _ _) (ho.of_still h)

theorem copyFinish_tames {size offset : Nat} (hc : CallsTame D B c) (ho : Orderly D B k) :
    Tames D B (copyFinish c pr size offset) k := by
  unfold copyFinish
  refine Tames.bind_still (keeps_buffers still_messaging) fun _ k₁ h₁ => ?_
  have ho₁ := ho.of_still h₁
  rw [Tames, wp_ite]
  exact ⟨fun _ => Tames.of_keeps (keeps_syscallReplyV still_messaging _ _) ho₁,
    fun _ => hc.pager _ k₁ ho₁⟩

theorem runCallback_tames (hc : CallsTame D B c) (ho : Orderly D B k) :
    Tames D B (runCallback c pr) k := by
  unfold runCallback
  split
  · exact wp_throw.mpr ⟨.refl k, rfl⟩
  · exact Tames.of_keeps (keeps_pagerContinue still_messaging pr) ho
  · unfold copyInContinue
    refine Tames.bind_still (keeps_prepareData still_paging _ _) fun _ k₁ h₁ => ?_
    rw [Tames, wp_bind, wp_get]
    refine Tames.bind_still (keeps_lookupEntry still_paging _ _) fun entry k₂ h₂ => ?_
    refine Tames.bind_still (keeps_buffers still_messaging) fun _ k₃ h₃ => ?_
    exact copyFinish_tames hc (((ho.of_still h₁).of_still h₂).of_still h₃)
  · unfold copyOutContinue
    rw [Tames, wp_bind, wp_get]
    refine Tames.bind_still (keeps_lookupEntry still_paging _ _) fun entry k₁ h₁ => ?_
    refine Tames.bind_still (keeps_buffers still_messaging) fun _ k₂ h₂ => ?_
    refine Tames.bind_still (keeps_prepareData still_paging _ _) fun _ k₃ h₃ => ?_
    exact copyFinish_tames hc (((ho.of_still h₁).of_still h₂).of_still h₃)

theorem pager_tames (hc : CallsTame D B c) (ho : Orderly D B k) : Tames D B (pager c pr) k := by
  unfold pager
  refine Tames.bind (pagerAction_tames hc ho) fun served k₁ ho₁ => ?_
  rw [Tames, wp_ite]
  refine ⟨fun _ => ?_, fun _ => Tames.pure ho₁⟩
  refine Tames.bind (runCallback_tames hc ho₁) fun _ k₂ ho₂ => ?_
  rw [Tames, wp_bind, wp_get, wp_ite]
  exact ⟨fun _ => hc.startRequest k₂ ho₂, fun _ => Tames.pure ho₂⟩

/-! ## Starting a request -/

/-- `swapfile_open` insists on a closed file. -/
theorem swapfileOpen_shut {ptr : SwapfilePtr} {rights : Nat} :
    Wp (swapfileOpen ptr rights) k (fun _ k' => Still k k' ∧ k'.Shut ptr)
      (fun f k' => CallsQuiet k k' ∧ NotOnReply f) := by
  unfold swapfileOpen
  rw [wp_bind, wp_derefSwapfile]
  refine ⟨fun _ => ⟨.refl k, rfl⟩, fun sf hsf => ?_⟩
  rw [wp_bind, wp_assert]
  refine ⟨fun hfd => ?_, fun _ => ⟨.refl k, rfl⟩⟩
  have hshut : k.Shut ptr := by
    intro d hd
    unfold Kernel.fd? at hd
    rw [hsf] at hd
    simp only [Option.map_some, Option.some.injEq] at hd
    rw [← hd]
    exact beq_iff_eq.mp hfd
  rw [wp_bind, wp_get]
  have hrest : Keeps Still NotOnReply (do
      strncpyToBuffer k.virtualPager sf.path
      vfsCall (.open sf.path (rights ||| fmNotrunc) 1 1)) :=
    .bind still_closed.trans (keeps_strncpyToBuffer still_messaging _ _) fun _ =>
      keeps_vfsCall still_messaging rfl
  exact (hrest k).mono (fun _ _ h => ⟨h, hshut.of_fds (h.fds ptr)⟩) fun _ _ h => ⟨h.1.calls, h.2⟩

/-- The end of `startSwapin` and `startSwapout`: the head is at its first stage and its file is
being opened. -/
theorem openHead_tames {r : Request} {ptr : SwapfilePtr} {rights : Nat} (hr : r.load? = none)
    (hactive : k.requestActive = true)
    (htail : ∀ er, .elfload er ∈ k.requests.tail → er.stage = .open)
    (hu : ∀ k', k'.Shut ptr → r.Underway k' D) :
    Tames D B (do setHead r; swapfileOpen ptr rights) k := by
  unfold setHead
  rw [Tames, wp_bind]
  refine modify_eq.imp fun _ k₁ h₁ => ?_
  have hreq : k₁.requests = r :: k.requests.tail := by rw [h₁]
  have ht : Tame k k₁ := by
    refine ⟨fun pid => .inl (by rw [h₁]), fun ptr => .inl (by rw [h₁]; rfl),
      .of_eq (by rw [h₁]), ?_⟩
    unfold Kernel.loads
    rw [hreq, List.filterMap_cons, hr]
    exact (List.tail_sublist _).filterMap _
  refine swapfileOpen_shut.mono (fun _ k₂ h₂ => ?_) fun _ _ h => ⟨ht.calls.trans h.1, h.2⟩
  obtain ⟨hs, hshut⟩ := h₂
  have hreq₂ : k₂.requests = r :: k.requests.tail := hs.requests.trans hreq
  refine ⟨ht.trans hs.tame, fun _ => ⟨r, _, hreq₂, .inl (hu k₂ hshut)⟩, ?_, fun hidle => ?_⟩
  · rw [hreq₂]
    exact htail
  · rw [hs.requestActive, h₁] at hidle
    rw [hactive] at hidle
    simp at hidle

theorem startSwapin_tames (hactive : k.requestActive = true)
    (htail : ∀ er, .elfload er ∈ k.requests.tail → er.stage = .open) :
    Tames D B startSwapin k := by
  unfold startSwapin
  refine Tames.bind_still (keeps_frameAlloc still_paging) fun f k₁ h₁ => ?_
  refine Tames.bind_still (.modify fun _ => still_paging.plain rfl) fun _ k₂ h₂ => ?_
  rw [Tames, wp_bind, wp_peekSwapin]
  refine ⟨fun _ => ⟨.refl k₂, rfl⟩, fun _ _ _ _ => ⟨.refl k₂, rfl⟩, fun pr rest _ => ?_⟩
  refine Tames.bind_still (keeps_lookupEntry still_paging _ _) fun entry k₃ h₃ => ?_
  refine Tames.bind_still (keeps_derefProcess still_closed _) fun p k₄ h₄ => ?_
  have h := still_closed.trans (still_closed.trans h₁ h₂) (still_closed.trans h₃ h₄)
  split
  · exact wp_throw.mpr ⟨.refl k₄, rfl⟩
  · next r _ =>
    have hopen : ∀ sf : SwapfilePtr, Tames D B (do
        setHead (.swapin { pr with
          sf := sf
          swapinFinish := if entry.elf then .finishSwapelf else .finishSwapin
          size := pageSize
          stage := some .swapinOpen })
        swapfileOpen sf fmRead) k₄ := fun sf =>
      openHead_tames rfl (h.requestActive.trans hactive) (by rw [h.requests]; exact htail)
        fun _ hshut => ⟨rfl, hshut⟩
    dsimp only
    rw [Tames, wp_ite]
    refine ⟨fun _ => ?_, fun _ => wp_bind.mpr (wp_pure.mpr (hopen _))⟩
    rw [wp_bind, wp_assert]
    exact ⟨fun _ => wp_bind.mpr (wp_pure.mpr (hopen _)), fun _ => ⟨.refl k₄, rfl⟩⟩

theorem startSwapout_tames (hactive : k.requestActive = true)
    (hfresh : ∀ er, .elfload er ∈ k.requests → er.stage = .open) :
    Tames D B startSwapout k := by
  unfold startSwapout
  refine Tames.bind_still (keeps_deleteAllocList still_paging rfl) fun found k₁ h₁ => ?_
  refine Tames.bind_still (keeps_lookupEntry still_paging _ _) fun entry k₂ h₂ => ?_
  refine Tames.bind_still (keeps_derefProcess still_closed _) fun p k₃ h₃ => ?_
  refine Tames.bind_still (keeps_assert still_closed rfl) fun _ k₄ h₄ => ?_
  refine Tames.bind_still (keeps_assert still_closed rfl) fun _ k₅ h₅ => ?_
  refine Tames.bind_still (keeps_prepareData still_paging _ _) fun _ k₆ h₆ => ?_
  refine Tames.bind_still (keeps_unmapPage still_paging _ _) fun _ k₇ h₇ => ?_
  have h := still_closed.trans (still_closed.trans (still_closed.trans h₁ h₂)
    (still_closed.trans h₃ h₄)) (still_closed.trans h₅ (still_closed.trans h₆ h₇))
  unfold allocPagerRequest
  rw [Tames, wp_bind, wp_bind, wp_derefProcess]
  refine ⟨fun _ => ⟨.refl k₇, rfl⟩, fun _ => ⟨.refl k₇, rfl⟩, fun q _ => wp_pure.mpr ?_⟩
  rw [wp_bind]
  refine modify_eq.imp fun _ k₈ h₈ => ?_
  have ht₈ : Tame k₇ k₈ := by
    rw [h₈]
    exact ⟨fun _ => .inl rfl, fun _ => .inl rfl, .of_eq rfl, .refl _⟩
  refine Tames.after ht₈ ?_
  refine Tames.bind_still (keeps_pagerSwapslotAlloc still_paging _) fun diskAddr k₉ h₉ => ?_
  refine Tames.bind_still (keeps_assert still_closed rfl) fun _ k₁₀ h₁₀ => ?_
  refine Tames.bind_still (keeps_setEntry still_paging _ _ _) fun _ k₁₁ h₁₁ => ?_
  have h' := still_closed.trans h₉ (still_closed.trans h₁₀ h₁₁)
  refine openHead_tames rfl ?_ ?_ fun _ hshut => ⟨rfl, ?_, hshut⟩
  · rw [h'.requestActive, h₈]
    exact h.requestActive.trans hactive
  · rw [h'.requests, h₈, List.tail_cons, h.requests]
    exact hfresh
  · show (-1 : Int) ≤ pageSize
    decide

theorem startPagerRequest_tames (hc : CallsTame D B c) (hactive : k.requestActive = true)
    (hfresh : ∀ er, .elfload er ∈ k.requests → er.stage = .open) :
    Tames D B (startPagerRequest c) k := by
  have htail : ∀ er, .elfload er ∈ k.requests.tail → er.stage = .open := fun er her =>
    hfresh er (List.mem_of_mem_tail her)
  unfold startPagerRequest
  rw [Tames, wp_bind, wp_requestsPeek]
  refine ⟨fun _ => ⟨.refl k, rfl⟩, fun r rest hreq => ?_⟩
  cases r with
  | elfload er => exact wp_throw.mpr ⟨.refl k, rfl⟩
  | swapout nextPr | swapin nextPr =>
    refine Tames.bind_still (keeps_lookupEntry still_paging _ _) fun entry k₁ h₁ => ?_
    have hactive₁ : k₁.requestActive = true := h₁.requestActive.trans hactive
    rw [Tames, wp_ite]
    refine ⟨fun _ => startSwapin_tames hactive₁ (by rw [h₁.requests]; exact htail), fun _ => ?_⟩
    rw [wp_bind, wp_get, wp_bind, wp_assert]
    refine ⟨fun _ => ?_, fun _ => ⟨.refl k₁, rfl⟩⟩
    rw [wp_ite]
    refine ⟨fun _ => ?_, fun _ =>
      startSwapout_tames hactive₁ (by rw [h₁.requests]; exact hfresh)⟩
    rw [wp_bind]
    refine modify_eq.imp fun _ k₂ h₂ => ?_
    rw [wp_bind]
    have hcalls : CallsQuiet k₁ k₂ := .of_eq (by rw [h₂])
    refine wp_requestsUnshift (fun _ => ⟨hcalls, rfl⟩) fun r' rest' hreq' k₃ h₃ => ?_
    have hreq₁ : k₁.requests = r' :: rest' := by rw [← hreq', h₂]
    have hsub : (rest'.filterMap Request.load?).Sublist k₁.loads := by
      unfold Kernel.loads
      rw [hreq₁]
      exact (List.sublist_cons_self r' rest').filterMap _
    have ht₃ : Tame k₁ k₃ := by
      rw [h₃, h₂]
      exact .of_requests hsub
    have ho₃ : Orderly D B k₃ := by
      refine .of_idle (by rw [h₃, h₂]) fun er her => hfresh er ?_
      rw [← h₁.requests, hreq₁]
      rw [h₃] at her
      exact List.mem_cons_of_mem _ her
    exact (hc.pager nextPr k₃ ho₃).after ht₃

theorem startRequest_tames (hc : CallsTame D B c) (ho : Orderly D B k) :
    Tames D B (startRequest c) k := by
  unfold startRequest
  rw [Tames, wp_bind, wp_get, wp_bind, wp_assert]
  refine ⟨fun _ => ?_, fun _ => ⟨.refl k, rfl⟩⟩
  rw [wp_bind, wp_assert]
  refine ⟨fun hidle => ?_, fun _ => ⟨.refl k, rfl⟩⟩
  have hidle : k.requestActive = false := by simpa using hidle
  rw [wp_bind]
  refine modify_eq.imp fun _ k₁ h₁ => ?_
  have ht₁ : Tame k k₁ := by
    rw [h₁]
    exact ⟨fun _ => .inl rfl, fun _ => .inl rfl, .of_eq rfl, .refl _⟩
  have hactive : k₁.requestActive = true := by rw [h₁]
  have hfresh : ∀ er, .elfload er ∈ k₁.requests → er.stage = .open := by
    rw [h₁]
    exact ho.idle hidle
  refine Tames.after ht₁ ?_
  rw [Tames, wp_bind, wp_requestsPeek]
  refine ⟨fun _ => ⟨.refl k₁, rfl⟩, fun r rest hreq => ?_⟩
  cases r with
  | swapout pr | swapin pr => exact startPagerRequest_tames hc hactive hfresh
  | elfload er =>
    -- the load at the head has not been opened before
    have hstage : er.stage = .open := hfresh er (by rw [hreq]; exact List.mem_cons_self ..)
    refine Tames.of_keeps (keeps_startElfload still_messaging) ⟨fun _ => ?_, fun er' her' => ?_, ?_⟩
    · refine ⟨_, rest, hreq, .inl fun h => ?_⟩
      simp [hstage] at h
    · exact hfresh er' (List.mem_of_mem_tail her')
    · intro h
      rw [hactive] at h
      simp at h

theorem calls_tame : ∀ n, CallsTame D B (calls n)
  | 0 => ⟨fun k _ => wp_throw.mpr ⟨.refl k, rfl⟩, fun _ k _ => wp_throw.mpr ⟨.refl k, rfl⟩⟩
  | n + 1 =>
    ⟨fun _ ho => startRequest_tames (calls_tame n) ho, fun _ _ ho => pager_tames (calls_tame n) ho⟩

end Sos
