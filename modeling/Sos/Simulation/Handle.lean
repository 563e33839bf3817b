import Sos.Simulation.Load

/-!
# Every message is a run of the pool

The remaining handlers, and the theorem all others rest on: handling a message takes the pool from
one state to the next by steps (`handle_steps`), so every reachable state of the pager has a pool
that is reachable by steps (`Reachable.steps`).
-/

namespace Sos

open Hoare

variable {k k' : Kernel} {pid : Pid} {M : Set Nat} {b : Bool}
variable {c : Calls} {p : Process} {rest : List Request}

/-! ## Loading -/

theorem finishElfload_handles {rval : Int} (hc : CallsServe M b c) (hs : Shape k) :
    Handles M b (finishElfload c rval) k := by
  unfold finishElfload
  rw [Handles, wp_bind, wp_requestsPeek]
  refine ⟨fun _ => trivial, fun r rest hreq => ?_⟩
  cases r with
  | swapin pr | swapout pr => exact wp_throw.mpr trivial
  | elfload er =>
    refine Quiets.bind (.of_keeps (keeps_processGetTid idle_messaging.toClosed _))
      fun tid k₁ q₁ => ?_
    refine Quiets.bind (.of_keeps (keeps_syscallReply idle_messaging _ _)) fun _ k₂ q₂ => ?_
    refine dequeueRequest_handles hc fun r hr => ?_
    rw [q₂.requests, q₁.requests, hreq] at hr
    rcases List.mem_cons.mp hr with rfl | hr
    · rfl
    · exact hs.tail r (by rw [hreq]; exact hr)

theorem continueElfload_handles {er : ElfloadRequest} {vfsRval : Int} (hc : CallsServe M b c)
    (h : Staged (.elfload er) rest k) : Handles M b (continueElfload c er vfsRval) k := by
  unfold continueElfload
  split
  · rw [Handles, wp_ite]
    refine ⟨fun _ => finishElfload_handles hc h.shape, fun _ => ?_⟩
    refine wp_bind.mpr (wp_get.mpr ?_)
    refine Quiets.bind (m := set _) (wp_set.mpr (.of_idle ⟨rfl, rfl, rfl, fun _ => rfl, rfl, rfl⟩))
      fun _ k₁ q₁ => ?_
    refine Quiets.bind (.of_keeps (keeps_strncpyToBuffer idle_messaging _ _)) fun _ k₂ q₂ => ?_
    refine Quiets.bind (.of_keeps (idle_vfsCall _)) fun _ k₃ q₃ => ?_
    exact (((h.of_quiet q₁).of_quiet q₂).of_quiet q₃).setHead rfl
  · refine Quiets.bind .of_assert fun _ k₁ q₁ => ?_
    have h₁ := h.of_quiet q₁
    refine wp_bind.mpr (wp_get.mpr ?_)
    rw [wp_ite]
    refine ⟨fun _ => finishElfload_handles hc h₁.shape, fun _ => ?_⟩
    refine Quiets.bind (.of_keeps (idle_vfsCall _)) fun _ k₂ q₂ => ?_
    exact (h₁.of_quiet q₂).setHead rfl
  · refine wp_bind.mpr (wp_get.mpr ?_)
    rw [wp_ite]
    refine ⟨fun _ => finishElfload_handles hc h.shape, fun _ => ?_⟩
    refine Quiets.bind loadProcess_quiet fun _ k₁ q₁ => ?_
    refine Quiets.bind (.of_keeps (idle_vfsCall _)) fun _ k₂ q₂ => ?_
    exact ((h.of_quiet q₁).of_quiet q₂).setHead rfl
  · exact finishElfload_handles hc h.shape

/-- Reserving a pid: the slot is empty before and after. -/
theorem reservePid_quiet : Quiets M b reservePid k := by
  unfold reservePid getNextPid
  simp only [wp_bind, wp_get]
  refine set_eq.imp fun _ k₁ h₁ => ?_
  have hq₁ : Quiet M b k k₁ := .of_idle (by rw [h₁]; exact ⟨rfl, rfl, rfl, fun _ => rfl, rfl, rfl⟩)
  split
  · next hnull =>
    rw [wp_pure]
    unfold processExists
    simp only [wp_bind, wp_get, wp_assert, wp_modify, wp_pure]
    refine ⟨fun _ => ⟨fun _ => ?_, fun _ => trivial⟩, fun _ => trivial⟩
    refine hq₁.trans ⟨?_, rfl, rfl⟩
    rw [pool_setSlot_same]
    rw [h₁, hnull]
    exact ⟨rfl, rfl, rfl, rfl, rfl⟩
  · exact wp_pure.mpr (wp_pure.mpr hq₁)

theorem processCreate_handles {parent : Pid} {fdout fderr fdin : Int} (hc : CallsServe M b c)
    (hs : Shape k) : Handles M b (processCreate c parent fdout fderr fdin) k := by
  unfold processCreate
  refine Quiets.bind reservePid_quiet fun child k₁ q₁ => ?_
  have hs₁ : Shape k₁ := hs.of_eq q₁.requests q₁.requestActive
  split
  · exact (Quiets.of_keeps (keeps_syscallReply idle_messaging _ _)).handles hs₁
  · rw [Handles, wp_bind, wp_derefProcess]
    refine ⟨fun _ => trivial, fun _ => trivial, fun p hp => ?_⟩
    rw [wp_bind, wp_get]
    exact (queueRequest_serves hc rfl hs₁).imp fun _ _ h => h.handled

/-! ## The smaller calls -/

theorem filterMap_growHeap (nb : Nat) :
    ∀ rs : List Region, (growHeap nb rs).filterMap Region.elffile = rs.filterMap Region.elffile
  | [] => rfl
  | r :: rs => by
    unfold growHeap
    split
    · simp only [List.filterMap_cons]
    · simp only [List.filterMap_cons, filterMap_growHeap nb rs]

/-- A region of the grown list, up to the size of a heap. -/
theorem mem_growHeap {nb : Nat} : ∀ {rs : List Region} {r : Region}, r ∈ growHeap nb rs →
    r ∈ rs ∨ ∃ r' ∈ rs, r'.type = .heap ∧ r.type = .heap ∧ r.mapDirectly = r'.mapDirectly
  | [], r, h => by simp [growHeap] at h
  | r₀ :: rs, r, h => by
    unfold growHeap at h
    split at h
    · next hheap =>
      rcases List.mem_cons.mp h with rfl | h
      · exact .inr ⟨r₀, List.mem_cons_self .., hheap, hheap, rfl⟩
      · exact .inl (List.mem_cons_of_mem _ h)
    · rcases List.mem_cons.mp h with rfl | h
      · exact .inl (List.mem_cons_self ..)
      · rcases mem_growHeap h with h | ⟨r', hr', h'⟩
        · exact .inl (List.mem_cons_of_mem _ h)
        · exact .inr ⟨r', List.mem_cons_of_mem _ hr', h'⟩

theorem mem_of_mem_growHeap (nb : Nat) : ∀ {rs : List Region} {r : Region}, r ∈ rs →
    r ∈ growHeap nb rs ∨
      r.type = .heap ∧ ∃ r' ∈ growHeap nb rs, r'.type = .heap ∧ r'.mapDirectly = r.mapDirectly
  | [], r, h => by simp at h
  | r₀ :: rs, r, h => by
    unfold growHeap
    split
    · next hheap =>
      rcases List.mem_cons.mp h with rfl | h
      · exact .inr ⟨hheap, _, List.mem_cons_self .., hheap, rfl⟩
      · exact .inl (List.mem_cons_of_mem _ h)
    · rcases List.mem_cons.mp h with rfl | h
      · exact .inl (List.mem_cons_self ..)
      · rcases mem_of_mem_growHeap nb h with h | ⟨ht, r', hr', h'⟩
        · exact .inl (List.mem_cons_of_mem _ h)
        · exact .inr ⟨ht, r', List.mem_cons_of_mem _ hr', h'⟩

/-- Growing the heap moves no resources. -/
theorem pool_growHeap {nb : Nat} :
    (k.updProcess pid fun p => { p with regions := growHeap nb p.regions }).pool = k.pool := by
  refine updProcess_cases rfl fun p hs => pool_setSlot_same ?_
  rw [hs]
  refine ⟨rfl, rfl, rfl, ?_, ?_⟩
  · show Multiset.ofList _ = Multiset.ofList _
    rw [filterMap_growHeap]
  · funext n
    refine propext ⟨?_, ?_⟩
    · rintro ⟨r, hr, hd, hn⟩
      rcases mem_growHeap hr with hr | ⟨r', hr', ht, -, hd'⟩
      · exact ⟨r, hr, hd, hn⟩
      · exact ⟨r', hr', hd' ▸ hd, .inl ht⟩
    · rintro ⟨r, hr, hd, hn⟩
      rcases mem_of_mem_growHeap nb hr with hr | ⟨ht, r', hr', ht', hd'⟩
      · exact ⟨r, hr, hd, hn⟩
      · exact ⟨r', hr', hd'.trans hd, .inl ht'⟩

theorem moremem_quiet {nb : Nat} : Quiets M b (moremem pid nb) k := by
  unfold moremem
  rw [Quiets, wp_bind, wp_derefProcess]
  refine ⟨fun _ => trivial, fun _ => trivial, fun p hp => ?_⟩
  split
  · exact wp_throw.mpr trivial
  · rw [wp_bind]
    refine modify_eq.imp fun _ k₁ h₁ => ?_
    rw [wp_bind]
    refine modify_eq.imp fun _ k₂ h₂ => ?_
    refine (keeps_syscallReply idle_messaging _ _ k₂).mono (fun _ k' h => ?_) (fun _ _ _ => trivial)
    have hrest : k₂ = { k₁ with sosProcs := k₂.sosProcs } := by rw [h₂]; exact updProcess_rest
    refine Quiet.trans ⟨?_, ?_, ?_⟩ (.of_idle h)
    · rw [h₂, pool_growHeap, h₁]
      exact .refl
    · rw [hrest, h₁]
    · rw [hrest, h₁]

theorem processWait_quiet {w : Nat} : Quiets M b (processWait pid w) k := by
  have hupd : ∀ on : Int, Quiets M b (modify fun k => k.updProcess pid fun p =>
      { p with waitingOn := on, state := .wait }) k := fun on =>
    wp_modify.mpr (.of_idle (idle_updProcess (fun _ => rfl) (fun _ => rfl) (fun _ => ⟨rfl, rfl⟩)))
  unfold processWait
  rw [Quiets, wp_ite]
  refine ⟨fun _ => hupd _, fun _ => ?_⟩
  split
  · rw [wp_bind, wp_get]
    split
    · exact hupd _
    · exact wp_throw.mpr trivial
    · exact hupd _
  · exact wp_throw.mpr trivial

theorem processDeleteCall_quiet {w : Nat} : Quiets M b (processDeleteCall pid w) k := by
  unfold processDeleteCall
  split
  · rw [Quiets, wp_bind]
    refine (processDelete_quiet (M := M) (b := b)).imp fun rval k₁ q₁ => ?_
    rw [wp_ite]
    refine ⟨fun _ => wp_pure.mpr q₁, fun _ => ?_⟩
    exact (keeps_syscallReply idle_messaging _ _ k₁).mono (fun _ _ h => q₁.trans (.of_idle h))
      (fun _ _ _ => trivial)
  · exact wp_throw.mpr trivial

theorem debugFlush_quiet : Quiets M b (debugFlush pid) k := by
  unfold debugFlush
  rw [Quiets, wp_bind]
  refine modify_eq.imp fun _ k₁ h₁ => ?_
  refine (keeps_syscallReplyV idle_messaging _ _ k₁).mono (fun _ k' h => ?_) (fun _ _ _ => trivial)
  refine Quiet.trans ⟨.single ?_, by rw [h₁], by rw [h₁]⟩ (.of_idle h)
  rw [h₁]
  exact .flush

theorem memloc_quiet {addr : Nat} : Quiets M b (memloc pid addr) k := by
  unfold memloc
  rw [Quiets, wp_bind]
  refine (Quiets.of_lookupEntry (M := M) (b := b)).imp fun entry k₁ q₁ => ?_
  exact (keeps_syscallReply idle_messaging _ _ k₁).mono (fun _ _ h => q₁.trans (.of_idle h))
    (fun _ _ _ => trivial)

/-! ## All messages -/

theorem copyStart_handles {addr size : Nat} {append : Bool} {rights : Nat} {callback : Callback}
    (hc : CallsServe M b c) (hs : Shape k) :
    Handles M b (copyStart c pid addr size append rights callback) k := by
  unfold copyStart allocPagerRequest
  refine Quiets.bind (.of_keeps (keeps_buffers idle_messaging))
    fun _ k₁ q₁ => ?_
  simp only [Handles, wp_bind, wp_derefProcess, wp_pure]
  refine ⟨fun _ => trivial, fun _ => trivial, fun p hp => ?_⟩
  exact (pager_serves hc (hs.of_eq q₁.requests q₁.requestActive)).imp fun _ _ h => h.handled

/-- When the answer that completes a swap-in from an executable arrives, no page of the process on
the swap file has the file offset of the page as its address. -/
def ClashFree (k : Kernel) (e : Event) : Prop :=
  e.sender = none → ∀ pr rest, k.requests = .swapin pr :: rest → pr.stage = some .swapinClose →
    k.pool.NoClash pr.pid (pageNo pr.addr)

theorem vfsHandler_handles {vfsRval : Int} (hc : CallsServe M b c) (hs : Shape k)
    (hactive : k.requestActive = true)
    (hclash : b = false → ∀ pr rest, k.requests = .swapin pr :: rest →
      pr.stage = some .swapinClose → k.pool.NoClash pr.pid (pageNo pr.addr)) :
    Handles M b (vfsHandler c vfsRval) k := by
  unfold vfsHandler
  rw [Handles, wp_bind, wp_requestsPeek]
  refine ⟨fun _ => trivial, fun r rest hreq => ?_⟩
  cases r with
  | swapout pr => exact continueSwapout_handles hc ⟨hreq, hs⟩ hactive
  | swapin pr => exact continueSwapin_handles hc ⟨hreq, hs⟩ hactive fun hb => hclash hb pr rest hreq
  | elfload er => exact continueElfload_handles hc ⟨hreq, hs⟩

/-- **Handling a message is a sequence of pool steps.** -/
theorem handleWith_handles {e : Event} (hc : CallsServe M b c) (hs : Shape k) (hen : Enabled k e)
    (hclash : b = false → ClashFree k e) : Handles M b (handleWith c e) k := by
  cases e with
  | pagefault pid addr rights =>
    unfold handleWith allocPagerRequest
    simp only [Handles, wp_bind, wp_derefProcess, wp_pure]
    exact ⟨fun _ => trivial, fun _ => trivial, fun p hp =>
      (pager_serves hc hs).imp fun _ _ h => h.handled⟩
  | copyin pid src size append | copyout pid dst size append => exact copyStart_handles hc hs
  | vfsReply rval buffer =>
    unfold handleWith
    rw [Handles, wp_bind]
    refine modify_eq.imp fun _ k₁ h₁ => ?_
    have hidle : Idle k k₁ := by rw [h₁]; exact ⟨rfl, rfl, rfl, fun _ => rfl, rfl, rfl⟩
    refine (vfsHandler_handles hc (hs.of_eq hidle.requests hidle.requestActive)
      (hidle.requestActive.trans hen) ?_).imp fun _ k' h => ⟨?_, h.shape⟩
    · intro hb pr rest hreq hstage
      rw [hidle.pool]
      exact hclash hb rfl pr rest (by rw [← hidle.requests]; exact hreq) hstage
    · rw [← hidle.pool]
      exact h.steps
  | moremem pid nb => exact moremem_quiet.handles hs
  | memloc pid addr => exact memloc_quiet.handles hs
  | memuse pid | swapuse pid | physuse pid =>
    exact (Quiets.of_keeps (Keeps.get fun k => keeps_syscallReply idle_messaging _ _)).handles hs
  | processWait pid w => exact processWait_quiet.handles hs
  | processDelete pid w => exact processDeleteCall_quiet.handles hs
  | processCreate pid fdout fderr fdin => exact processCreate_handles hc hs
  | debugFlush pid => exact debugFlush_quiet.handles hs
  | exception pid =>
    unfold handleWith
    rw [Handles, wp_discard]
    exact Quiets.handles (processDelete_quiet (M := M) (b := b)) hs

theorem Step.handled {e : Event} (h : Step k e k') (hs : Shape k)
    (hclash : b = false → ClashFree k e) : Handled M b k k' := by
  obtain ⟨hen, n, hrun⟩ := h
  exact (handleWith_handles (calls_serve M b n) hs hen hclash).ok hrun

end Sos
