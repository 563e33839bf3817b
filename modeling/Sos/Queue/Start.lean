import Sos.Queue.Restart

/-!
# Starting requests

What starts a request settles the queue, and with it all functions that call each other
(`calls_settle`, by induction on the depth of the calls). A victim for a swap-out is always there,
because a swap-out is started only when all user frames are handed out (`Fit.alloced_ne_nil`).
-/

namespace Sos

open Hoare

variable {k k' k₀ k₁ : Kernel} {c : Calls} {pid : Pid} {pr : PagerRequest} {r : Request}
variable {M : Set Nat} {rest : List Request}

/-! ## The accounts of the pool -/

/-- One frame is being written if a swap-out is at the head of the queue, and none otherwise. -/
theorem Shape.card_writing (h : Shape k) :
    k.pool.writing.card = if k.requests.head?.any Request.isSwapout then 1 else 0 := by
  have hcard : k.pool.writing.card = (k.requests.filterMap Request.writing).length :=
    Multiset.coe_card _
  rw [hcard]
  cases hreq : k.requests with
  | nil => rfl
  | cons r rest =>
    have htail : rest.filterMap Request.writing = [] :=
      List.filterMap_eq_nil_iff.mpr fun r' hr' =>
        writing_of_not_isSwapout (h.tail r' (by rw [hreq]; exact hr'))
    rw [List.filterMap_cons]
    cases hw : r.writing with
    | none | some f => simp [htail, Request.isSwapout, hw]

/-- When the limit is used up there is a page to swap out. -/
theorem Fit.alloced_ne_nil (h : Fit k) (h0 : k.allocLimit ≤ 0) : k.alloced ≠ [] := by
  intro hnil
  have hacc := h.inv.account
  have hw := h.shape.card_writing
  have ha : k.pool.alloced.card = 0 := by
    show (Multiset.ofList (k.alloced.map _)).card = 0
    rw [hnil]
    rfl
  have hl : k.pool.limit = k.allocLimit := rfl
  have hlimit : frameAllocLimit = 1024 := rfl
  rw [ha, hl, hw, hlimit] at hacc
  split at hacc <;> omega

/-! ## Starting a swap -/

theorem NoVictim.blamed {f : Fault} (h : k.NoVictim f) (hne : k.alloced ≠ []) : Blamed f k' := by
  rcases h with h | h
  · exact .unwatched h
  · exact absurd h.2 hne

/-- The queue ends in a state to which the requests of dead processes have been carried from
`k₀`. -/
abbrev Ends (k₀ : Kernel) {α : Type} (m : PagerM α) (k : Kernel) : Prop :=
  Wp m k (fun _ k' => Carries k₀ k' ∧ Settled k') Blamed

theorem startSwapin_ends (hcar : Carries k₀ k) (hactive : k.requestActive = true) :
    Ends k₀ startSwapin k := by
  refine (startSwapin_spec (M := ∅) (b := true)).mono (fun _ k' h => ?_)
    fun _ _ h => .unwatched h
  obtain ⟨pr, rest, sf, hreq, hreq'⟩ := h.requests
  refine ⟨hcar.trans ⟨fun ho => h.overrun.trans ho, fun _ => h.repaged.dead, ?_⟩,
    .of_active (h.requestActive.trans hactive) (by rw [hreq']; simp)⟩
  rintro pid addr ⟨hdead, pr', hpr', hpid, haddr⟩
  refine ⟨h.repaged.dead hdead, ?_⟩
  rw [hreq]  at hpr'
  rw [hreq']
  rcases List.mem_cons.mp hpr' with heq | hmem
  · injection heq with heq
    subst heq
    exact ⟨_, List.mem_cons_self .., hpid, haddr⟩
  · exact ⟨pr', List.mem_cons_of_mem _ hmem, hpid, haddr⟩

theorem startSwapout_ends (hf : Fit k) (h0 : k.allocLimit ≤ 0) (hcar : Carries k₀ k)
    (hactive : k.requestActive = true) : Ends k₀ startSwapout k := by
  refine (startSwapout_spec (M := ∅) (b := true)).mono (fun _ k' h => ?_)
    fun _ _ h => NoVictim.blamed h (hf.alloced_ne_nil h0)
  obtain ⟨pr, hreq, -⟩ := h.requests
  refine ⟨hcar.trans (.of_subset (fun ho => h.overrun.trans ho) (fun _ => h.repaged.dead) ?_),
    .of_active (h.requestActive.trans hactive) (by rw [hreq]; simp)⟩
  intro pr' hpr' _
  rw [hreq]
  exact List.mem_cons_of_mem _ hpr'

/-! ## Starting a request -/

/-- A request whose process is there leaves the queue: those of dead processes are still in it. -/
theorem Carries.of_unshift {b o : Bool} (hreq : k.requests = r :: rest)
    (ho : k.overrun = true → o = true)
    (hlive : ∀ pr, r = .swapin pr → (k.sosProcs pr.pid).live = true) :
    Carries k { k with requestActive := b, overrun := o, requests := rest } := by
  refine .of_subset ho (fun _ h => h) fun pr hpr hdead => ?_
  rw [hreq] at hpr
  rcases List.mem_cons.mp hpr with heq | hmem
  · rw [hlive pr heq.symm] at hdead
    simp at hdead
  · exact hmem

theorem startPagerRequest_ends (hc : CallsSettle M c) (hf : Fit k)
    (hno : ∀ r ∈ k.requests, r.isSwapout = false) (hactive : k.requestActive = true) :
    Ends k (startPagerRequest c) k := by
  refine wp_startPagerRequest (fun _ => .unwatched rfl) (fun _ _ _ => .unwatched rfl) ?_
  intro pr r rest hreq hr
  have hrest : ∀ r' ∈ rest, r'.isSwapout = false := fun r' hr' =>
    hno r' (by rw [hreq]; exact List.mem_cons_of_mem _ hr')
  refine
    { null := fun _ => .unwatched rfl
      placeholder := fun _ => .unwatched rfl
      noTable := fun _ _ => .unwatched rfl
      swap := fun k₁ hgrow _ _ =>
        startSwapin_ends hgrow.steady.carries (hgrow.requestActive.trans hactive)
      pinned := fun _ _ _ _ => .unwatched rfl
      restart := fun k₁ hlooked hswap hpin hpos => ?_
      full := fun k₁ hgrow _ _ _ h0 =>
        startSwapout_ends ((hgrow.served (M := M) hf.shape).fit hf)
          (by rw [hgrow.allocLimit]; exact h0)
          hgrow.steady.carries (hgrow.requestActive.trans hactive) }
  have hgrow := hlooked.grow
  have hreq₁ : k₁.requests = r :: rest := hgrow.requests.trans hreq
  obtain ⟨p, t, hp, -⟩ := hlooked.table
  have hcar : Carries k { k₁ with
      requestActive := false
      overrun := k₁.overrun || k₁.overruns pr
      requests := rest } := by
    refine hgrow.steady.carries.trans (.of_unshift hreq₁ (fun ho => by simp [ho]) fun pr' heq => ?_)
    rcases hr with rfl | rfl
    · simp at heq
    · injection heq with heq
      rw [← heq, hp]
      rfl
  have hpool : ({ k₁ with
      requestActive := false
      overrun := k₁.overrun || k₁.overruns pr
      requests := rest } : Kernel).pool = k₁.pool :=
    pool_unshift (k := { k₁ with
      requestActive := false
      overrun := k₁.overrun || k₁.overruns pr }) hreq₁
      (hno r (by rw [hreq]; exact List.mem_cons_self ..))
  have hfit : Fit { k₁ with
      requestActive := false
      overrun := k₁.overrun || k₁.overruns pr
      requests := rest } :=
    ⟨.of_forall hrest, by rw [hpool]; exact (hgrow.steps M true).inv hf.inv⟩
  by_cases hset : (k₁.overrun || k₁.overruns pr) = true ∨ rest = []
  · -- nobody is behind it, or it does not matter any more
    refine (hc.pager pr _ hfit ?_).imp fun _ k' h => ⟨hcar.trans h.2.1, h.2.2⟩
    rcases hset with ho | hnil
    · exact .inl ho
    · exact .inr ⟨fun h => by simp at h, fun h => absurd hnil h⟩
  · obtain ⟨ho, hne⟩ := not_or.mp hset
    have hserv : k₁.Servable p pr := by
      have ho' : k₁.overruns pr = false := by
        simp only [Bool.or_eq_true, not_or, Bool.not_eq_true] at ho
        exact ho.2
      unfold Kernel.overruns at ho'
      rw [hp, hreq₁] at ho'
      simpa [Slot.pcb?, hne] using ho'
    obtain ⟨hg, hfor, hcopy⟩ := hserv
    refine (hc.restart pr _ p hfit rfl hne hp hfor hcopy).imp fun _ k' h => ?_
    exact ⟨hcar.trans h.2.1, h.2.2.2 hg⟩

theorem startRequest_settles (hc : CallsSettle M c) (hf : Fit k) (hp : Paused k) :
    Settles M (startRequest c) k := by
  refine .of_serves (startRequest_serves hc.serves hf.shape) ?_
  unfold startRequest
  rw [wp_bind, wp_get, wp_bind, wp_assert]
  refine ⟨fun _ => ?_, fun _ => .unwatched rfl⟩
  rw [wp_bind, wp_assert]
  refine ⟨fun hidle => ?_, fun hactive => ⟨rfl, fun _ => ?_⟩⟩
  · have hidle : k.requestActive = false := by simpa using hidle
    rw [wp_bind]
    refine modify_eq.imp fun _ k₁ h₁ => ?_
    have hno : ∀ r ∈ k₁.requests, r.isSwapout = false := by
      rw [h₁]
      exact hf.shape.idle hidle
    have hfit₁ : Fit k₁ := ⟨.of_forall hno, by rw [h₁]; exact hf.inv⟩
    have hcar : Carries k k₁ := by
      rw [h₁]
      exact .of_subset id (fun _ h => h) fun _ h _ => h
    have hactive₁ : k₁.requestActive = true := by rw [h₁]
    have hstart : Ends k (startPagerRequest c) k₁ :=
      (startPagerRequest_ends hc hfit₁ hno hactive₁).imp fun _ _ h => ⟨hcar.trans h.1, h.2⟩
    rw [wp_bind, wp_requestsPeek]
    refine ⟨fun _ => .unwatched rfl, fun r rest hreq => ?_⟩
    cases r with
    | swapout pr | swapin pr => exact hstart
    | elfload er =>
      refine (keeps_startElfload steady_messaging k₁).mono (fun _ k' h => ?_) fun _ _ h =>
        h.2.blamed
      exact ⟨hcar.trans h.carries, (Settled.of_active hactive₁ (by rw [hreq]; simp)).of_steady h⟩
  · exact hp.resolve_right fun h => by simp [h.1] at hactive

/-- **The mutual calls settle the queue, however deep they go.** -/
theorem calls_settle (M : Set Nat) : ∀ n, CallsSettle M (calls n)
  | 0 =>
    { serves := calls_serve M true 0
      startRequest := fun _ _ _ => wp_throw.mpr (.unwatched rfl)
      pager := fun _ _ _ _ => wp_throw.mpr (.unwatched rfl)
      restart := fun _ _ _ _ _ _ _ _ _ => wp_throw.mpr (.unwatched rfl) }
  | n + 1 =>
    { serves := calls_serve M true (n + 1)
      startRequest := fun _ hf hp => startRequest_settles (calls_settle M n) hf hp
      pager := fun _ _ hf hset => pager_settles (calls_settle M n) hf hset
      restart := fun _ _ _ hf hidle hne hp hfor hcopy =>
        pager_restart (calls_settle M n) hf hidle hne hp hfor hcopy }

end Sos
