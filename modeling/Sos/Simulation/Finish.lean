import Sos.Simulation.Queue

/-!
# The stages of a swap

What the answers of the file system lead to: the stages of swapping in and out, and the functions
that finish them. All of them are steps of the pool that keep the queue in shape.

`finishSwapelf` clears the ELF mark of the entry before `finishSwapin` gives the slot back. In the
pool this is one step, so `Leaving` lets the pool the step starts from have the mark still set.
-/

namespace Sos

open Hoare

variable {k k' k'' : Kernel} {E : Fault → Kernel → Prop} {pid : Pid} {M : Set Nat} {b : Bool}
variable {c : Calls} {r : Request} {pr : PagerRequest} {rest : List Request}

/-! ## Composing -/

abbrev Handles (M : Set Nat) (b : Bool) {α : Type} (m : PagerM α) (k : Kernel) : Prop :=
  Wp m k (fun _ k' => Handled M b k k') (fun _ _ => True)

abbrev Quiets (M : Set Nat) (b : Bool) {α : Type} (m : PagerM α) (k : Kernel) : Prop :=
  Wp m k (fun _ k' => Quiet M b k k') (fun _ _ => True)

theorem Handled.trans (h : Handled M b k k') (h' : Handled M b k' k'') : Handled M b k k'' :=
  ⟨h.steps.trans h'.steps, h'.shape⟩

theorem Quiets.bind {α β : Type} {m : PagerM α} {f : α → PagerM β} (hm : Quiets M b m k)
    (hf : ∀ a k', Quiet M b k k' → Handles M b (f a) k') : Handles M b (m >>= f) k := by
  refine wp_bind.mpr (hm.imp fun a k' h => ?_)
  exact (hf a k' h).imp fun _ k'' h' => ⟨h.steps.trans h'.steps, h'.shape⟩

theorem Quiets.of_keeps {α : Type} {m : PagerM α} (hm : Keeps Idle (fun _ => True) m) :
    Quiets M b m k :=
  (hm k).mono (fun _ _ h => .of_idle h) (fun _ _ _ => trivial)

theorem Quiets.of_lookupEntry {addr : Nat} : Quiets M b (lookupEntry pid addr) k :=
  wp_lookupEntry (fun _ => trivial) (fun _ => trivial) (fun _ _ _ => trivial)
    fun _ hgrow _ => .of_grow hgrow

theorem Quiets.of_assert {p : Bool} {site : Site} : Quiets M b (assert p site) k :=
  .of_keeps (idle_assert p site)

/-- The head is replaced by one of the same kind. -/
theorem setHead_handles {r' : Request} (hreq : k.requests = r :: rest) (hs : Shape k)
    (hw : r'.writing = r.writing) : Handles M b (setHead r') k := by
  refine wp_modify.mpr ⟨?_, ?_⟩
  · rw [pool_setHead hreq hw]
  · have hso : r'.isSwapout = r.isSwapout := by unfold Request.isSwapout; rw [hw]
    refine ⟨fun x hx => hs.tail x hx, fun hidle x hx => ?_⟩
    rcases List.mem_cons.mp hx with rfl | hx
    · rw [hso]
      exact hs.idle hidle r (by rw [hreq]; exact List.mem_cons_self ..)
    · exact hs.tail x hx

/-! ## Finishing a swap-in -/

theorem Served.all_not_swapout (h : Served M b k k') (hactive : k.requestActive = true)
    (hno : ∀ r ∈ k.requests, r.isSwapout = false) : ∀ r ∈ k'.requests, r.isSwapout = false := by
  obtain ⟨-, l, hl, hno'⟩ := h.appends hactive
  intro r hr
  rw [hl] at hr
  rcases List.mem_append.mp hr with hr | hr
  · exact hno r hr
  · exact hno' r hr

/-- The end that the two ways to a page have in common: the callback, and the next request. -/
theorem callback_dequeue_handles (pr : PagerRequest) (hc : CallsServe M b c)
    (hactive : k.requestActive = true) (hno : ∀ r ∈ k.requests, r.isSwapout = false) :
    Handles M b (do runCallback c pr; dequeueRequest c) k := by
  refine wp_bind.mpr ((runCallback_serves hc (.of_forall hno)).imp fun _ k₁ h₁ => ?_)
  exact (dequeueRequest_handles hc (h₁.all_not_swapout hactive hno)).imp fun _ k' h =>
    h₁.handled.trans h

/-- Giving the pinned frame back. -/
theorem unpin_step (mem : Nat → UInt8) :
    Pool.Step M b k.pool
      ({ k with memory := mem, pinnedFrame := 0 }.frameFree k.pinnedFrame).pool := by
  rw [pool_frameFree]
  exact .unpin

/-- A page that has been read gets its frame, and the request is done. -/
def giveFrame (c : Calls) (pr : PagerRequest) (addr : Nat) : PagerM Unit := do
  discard <| pagerAction c pr
  let entry ← lookupEntry pr.pid addr
  modify fun k => { k with
    memory := blit k.memory entry.addr pageSize (fun i => k.memory (k.pinnedFrame + i)) }
  prepareData pr.pid addr
  frameFree (← get).pinnedFrame
  modify fun k => { k with pinnedFrame := 0 }
  runCallback c pr
  dequeueRequest c

theorem giveFrame_handles (hc : CallsServe M b c) (hactive : k.requestActive = true)
    (hno : ∀ r ∈ k.requests, r.isSwapout = false) {addr : Nat} :
    Handles M b (giveFrame c pr addr) k := by
  unfold giveFrame
  have hs : Shape k := .of_forall hno
  rw [Handles, wp_bind, wp_discard]
  refine (pagerAction_serves hc hs).imp fun _ k₁ h₁ => ?_
  rw [wp_bind]
  refine (Serves.of_lookupEntry (M := M) (b := b) h₁.shape).imp fun entry k₂ h₂ => ?_
  rw [wp_bind]
  refine modify_eq.imp fun _ k₃ hk₃ => ?_
  have h₃ : Served M b k₂ k₃ := by
    rw [hk₃]
    exact Idle.served ⟨rfl, rfl, rfl, fun _ => rfl, rfl, rfl⟩ h₂.shape
  rw [wp_bind]
  refine (Serves.of_prepareData (M := M) (b := b) h₃.shape).imp fun _ k₄ h₄ => ?_
  simp only [wp_bind, wp_get, wp_frameFree]
  refine modify_eq.imp fun _ k₅ hk₅ => ?_
  have h₅ : Served M b k₄ k₅ := by
    refine Quiet.served ⟨.single ?_, by rw [hk₅]; rfl, by rw [hk₅]; rfl⟩ h₄.shape
    rw [hk₅]
    exact unpin_step k₄.memory
  have h := (((h₁.trans h₂).trans h₃).trans h₄).trans h₅
  have hend := callback_dequeue_handles pr hc (h.appends hactive).1
    (h.all_not_swapout hactive hno)
  rw [Handles, wp_bind] at hend
  exact hend.imp fun _ _ hd => hd.imp fun _ _ hh => h.handled.trans hh

/-- No page of the process on the swap file has the address this page has on its own file. -/
def Pool.NoClash (P : Pool) (p : Pid) (a : Page) : Prop :=
  (P.pte p a).elf = true → ∀ m, P.OnSwap p m → (P.pte p m).addr ≠ (P.pte p a).addr

/-- The page of `pr` is about to leave the disk. `P` is the pool this started from: the ELF mark may
have been cleared since. -/
structure Leaving (b : Bool) (P : Pool) (pr : PagerRequest) (k : Kernel) : Prop where
  before : P = k.pool ∨ k.HasTable pr.pid (pageNo pr.addr) ∧
    ∃ x, k.pool = P.setPte pr.pid (pageNo pr.addr)
      { P.pte pr.pid (pageNo pr.addr) with elf := x }
  clash : b = false → P.NoClash pr.pid (pageNo pr.addr)

/-- The look-up before the page leaves the disk. -/
theorem Leaving.looked {P : Pool} {k₁ : Kernel} (h : Leaving b P pr k)
    (hl : Looked pr.pid (pageAlign pr.addr) k k₁) :
    k₁.HasTable pr.pid (pageNo pr.addr) ∧
      ∃ P₁, Pool.Steps M b P P₁ ∧ k₁.pool = P₁.setPte pr.pid (pageNo pr.addr) (k.entryOf pr) ∧
        (P₁.pte pr.pid (pageNo pr.addr)).swap = (k.entryOf pr).swap ∧
        (P₁.pte pr.pid (pageNo pr.addr)).addr = (k.entryOf pr).addr ∧
        (b = false → P₁.NoClash pr.pid (pageNo pr.addr)) := by
  have hgrow := hl.grow
  have htable₁ := hl.table
  rw [pageNo_pageAlign] at htable₁
  refine ⟨htable₁, ?_⟩
  have hpte : k₁.pool.pte pr.pid (pageNo pr.addr) = k.entryOf pr := by rw [hgrow.pte]; rfl
  rcases h.before with rfl | ⟨htable, x, hx⟩
  · refine ⟨k₁.pool, hgrow.steps M b, ?_, by rw [hpte], by rw [hpte], fun hb => ?_⟩
    · rw [← hpte, Pool.setPte_eq_self]
    · have hcl := h.clash hb
      unfold Pool.NoClash Pool.OnSwap at hcl ⊢
      rw [hgrow.pte, hgrow.live]
      exact hcl
  · obtain rfl : k₁ = k := by
      cases hl with
      | found => rfl
      | made hp hnone _ _ =>
        obtain ⟨q, t, hq, ht⟩ := htable
        obtain rfl : q = _ := by simpa using hq.symm.trans hp
        rw [pageNo_pageAlign, ht] at hnone
        simp at hnone
    have he : k₁.entryOf pr = { P.pte pr.pid (pageNo pr.addr) with elf := x } := by
      unfold Kernel.entryOf
      rw [hx, Pool.pte_setPte, if_pos ⟨rfl, rfl⟩]
    refine ⟨P, .refl, ?_, ?_, ?_, h.clash⟩
    · rw [he]
      exact hx
    · rw [he]
    · rw [he]

/-- The page leaves the disk in one step of the pool. -/
theorem Leaving.leaveDisk {P : Pool} {k₁ : Kernel} (h : Leaving b P pr k)
    (hl : Looked pr.pid (pageAlign pr.addr) k k₁) (hswap : (k.entryOf pr).swap) :
    Wp (leaveDisk pr.pid (pageAlign pr.addr) (k.entryOf pr)) k₁ (fun _ k₂ =>
      Pool.Steps M b P k₂.pool ∧ ∃ P₁, LeftDisk M b pr.pid (pageNo pr.addr) (k.entryOf pr) P₁ k₁ k₂)
      (fun _ _ => True) := by
  obtain ⟨htable, P₁, hsteps, hpool₁, hsw, haddr, hclash⟩ := h.looked (M := M) hl
  rw [← pageNo_pageAlign] at htable hpool₁ hsw haddr hclash
  have hspec : Wp (Sos.leaveDisk pr.pid (pageAlign pr.addr) (k.entryOf pr)) k₁ (fun _ k₂ =>
      LeftDisk M b pr.pid (pageNo (pageAlign pr.addr)) (k.entryOf pr) P₁ k₁ k₂) (fun _ _ => True) :=
    leaveDisk_spec htable hpool₁ (by rw [hsw]; exact hswap) haddr.symm hclash
  refine hspec.imp fun _ k₂ h₂ => ?_
  rw [pageNo_pageAlign] at h₂
  exact ⟨hsteps.tail h₂.step, P₁, h₂⟩

theorem finishSwapinFor_handles {P : Pool} (hc : CallsServe M b c)
    (hreq : k.requests = .swapin pr :: rest) (hs : Shape k) (hactive : k.requestActive = true)
    (hleave : Leaving b P pr k) :
    Wp (finishSwapinFor c pr) k (fun _ k' => Pool.Steps M b P k'.pool ∧ Shape k')
      (fun _ _ => True) := by
  unfold finishSwapinFor
  rw [wp_bind]
  refine wp_lookupEntry_looked (fun _ => trivial) (fun _ => trivial) (fun _ _ _ => trivial) ?_
  intro k₁ hlooked
  have hentry : k.pool.pte pr.pid (pageNo (pageAlign pr.addr)) = k.entryOf pr := by
    rw [pageNo_pageAlign]
    rfl
  have hgrow := hlooked.grow
  rw [hentry, wp_bind, wp_assert]
  refine ⟨fun hsw => ?_, fun _ => trivial⟩
  rw [wp_bind]
  refine (hleave.leaveDisk (M := M) hlooked hsw).imp fun _ k₂ h => ?_
  obtain ⟨hsteps₂, P₁, h₂⟩ := h
  have hreq₂ : k₂.requests = .swapin pr :: rest := by
    rw [h₂.rest]
    exact hgrow.requests.trans hreq
  have hactive₂ : k₂.requestActive = true := by
    rw [h₂.rest]
    exact hgrow.requestActive.trans hactive
  have hno₂ : ∀ r ∈ k₂.requests, r.isSwapout = false := by
    intro r hr
    rw [hreq₂] at hr
    rcases List.mem_cons.mp hr with rfl | hr
    · rfl
    · exact hs.tail r (by rw [hreq]; exact hr)
  rw [wp_bind, wp_get, wp_ite]
  refine ⟨fun _ => ?_, fun _ => ?_⟩
  · -- there is a frame for the page
    exact (giveFrame_handles hc hactive₂ hno₂).imp fun _ k' h => ⟨hsteps₂.trans h.steps, h.shape⟩
  · refine (startSwapout_spec (M := M) (b := b)).mono (fun _ k' h => ⟨hsteps₂.trans h.steps, ?_⟩)
      fun _ _ _ => trivial
    obtain ⟨pr', hreq', -⟩ := h.requests
    refine ⟨fun r hr => ?_, fun hidle => ?_⟩
    · rw [hreq'] at hr
      exact hno₂ r hr
    · rw [h.requestActive, hactive₂] at hidle
      simp at hidle

theorem finishSwapin_handles {P : Pool} (hc : CallsServe M b c) (hs : Shape k)
    (hactive : k.requestActive = true)
    (hleave : ∀ pr rest, k.requests = .swapin pr :: rest → Leaving b P pr k) :
    Wp (finishSwapin c) k (fun _ k' => Pool.Steps M b P k'.pool ∧ Shape k') (fun _ _ => True) := by
  unfold finishSwapin
  rw [wp_bind, wp_peekSwapin]
  refine ⟨fun _ => trivial, fun _ _ _ _ => trivial, fun pr rest hreq => ?_⟩
  rw [wp_bind, wp_get]
  split
  · -- the process has died: whatever is done, the pager faults in the end
    simp only [wp_bind, wp_get, wp_frameFree, wp_modify]
    exact Wp.trivial.imp fun _ _ _ => Wp.trivial.imp fun _ _ _ => wp_throw.mpr trivial
  · exact wp_throw.mpr trivial
  · exact finishSwapinFor_handles hc hreq hs hactive (hleave pr rest hreq)

/-- The ELF mark of the page has been cleared since `k₁`. -/
theorem leaving_of_unmarked {k₁ k₂ k₃ : Kernel} (hgrow : Grow k k₁)
    (htable : k₁.HasTable pr.pid (pageNo pr.addr)) (hidle : Idle k₁ k₂)
    (h₃ : k₃ = k₂.updProcess pr.pid fun p => { p with
      pagetable := p.pagetable.setEntry (pageNo pr.addr) { k.entryOf pr with elf := false } })
    (hclash : b = false → k.pool.NoClash pr.pid (pageNo pr.addr)) : Leaving b k₁.pool pr k₃ := by
  have htable₂ : k₂.HasTable pr.pid (pageNo pr.addr) := (Repaged.of_idle hidle).table _ _ htable
  refine ⟨.inr ⟨?_, false, ?_⟩, fun hb => ?_⟩
  · rw [h₃]
    exact HasTable.setEntry htable₂
  · rw [h₃, pool_setEntry htable₂, hidle.pool, hgrow.pte]
    rfl
  · have hcl := hclash hb
    unfold Pool.NoClash Pool.OnSwap at hcl ⊢
    rw [hgrow.pte, hgrow.live]
    exact hcl

theorem finishSwapelf_handles (hc : CallsServe M b c) (hs : Shape k)
    (hactive : k.requestActive = true)
    (hclash : b = false → ∀ pr rest, k.requests = .swapin pr :: rest →
      k.pool.NoClash pr.pid (pageNo pr.addr)) :
    Handles M b (finishSwapelf c) k := by
  refine wp_finishSwapelf trivial fun pr hpr => ?_
  unfold finishSwapelfFor
  rw [wp_bind, wp_derefProcess]
  refine ⟨fun _ => trivial, fun _ => trivial, fun p hp => ?_⟩
  rw [wp_bind]
  refine wp_lookupEntry (fun _ => trivial) (fun _ => trivial) (fun _ _ _ => trivial) ?_
  intro k₁ hgrow htable
  split
  · exact wp_throw.mpr trivial
  · next r hr =>
    rw [wp_bind]
    refine (keeps_zeroTail idle_messaging r pr.addr k₁).mono (fun _ k₂ hidle => ?_)
      (fun _ _ _ => trivial)
    rw [wp_bind]
    refine wp_setEntry fun k₃ h₃ => ?_
    have hrest₃ : k₃ = { k₂ with sosProcs := k₃.sosProcs } := by
      rw [h₃]
      exact updProcess_rest
    have hreq₃ : k₃.requests = k.requests := by
      rw [hrest₃]
      exact hidle.requests.trans hgrow.requests
    have hactive₃ : k₃.requestActive = k.requestActive := by
      rw [hrest₃]
      exact hidle.requestActive.trans hgrow.requestActive
    refine (finishSwapin_handles (P := k₁.pool) hc (hs.of_eq hreq₃ hactive₃)
      (hactive₃.trans hactive) ?_).imp fun _ k' h => ⟨(hgrow.steps M b).trans h.1, h.2⟩
    intro pr' rest hreq'
    rw [hreq₃] at hreq'
    obtain rfl := hpr pr' rest hreq'
    exact leaving_of_unmarked hgrow htable hidle h₃ fun hb => hclash hb pr' rest hreq'

/-! ## Finishing a swap-out -/

theorem fillFrame_quiet {frame : Nat} : Quiets M b (fillFrame frame) k := by
  unfold fillFrame
  rw [Quiets, wp_bind, wp_get, wp_ite]
  refine ⟨fun _ => wp_set.mpr ⟨.single (unpin_step _), rfl, rfl⟩, fun _ => wp_set.mpr ?_⟩
  exact .of_idle ⟨rfl, rfl, rfl, fun _ => rfl, rfl, rfl⟩

theorem finishSwapoutFor_handles (hc : CallsServe M b c) (hactive : k.requestActive = true)
    (hno : ∀ r ∈ k.requests, r.isSwapout = false) : Handles M b (finishSwapoutFor c pr) k := by
  unfold finishSwapoutFor
  rw [Handles, wp_bind, wp_discard]
  refine (pagerAction_serves hc (.of_forall hno)).imp fun _ k₁ h₁ => ?_
  rw [wp_bind]
  refine (Serves.of_lookupEntry (M := M) (b := b) h₁.shape).imp fun entry k₂ h₂ => ?_
  rw [wp_bind]
  refine (fillFrame_quiet (M := M) (b := b)).imp fun _ k₃ hq₃ => ?_
  have h₃ := hq₃.served h₂.shape
  rw [wp_bind]
  refine (Serves.of_prepareData (M := M) (b := b) h₃.shape).imp fun _ k₄ h₄ => ?_
  have h := ((h₁.trans h₂).trans h₃).trans h₄
  exact (callback_dequeue_handles pr hc (h.appends hactive).1
    (h.all_not_swapout hactive hno)).imp fun _ _ hd => h.handled.trans hd

/-- The frame of a page that has been written is free again, whether its process is there or not. -/
theorem pagerFrameFree_some_spec {g : Nat} {Q : Unit → Kernel → Prop}
    (halign : pageOffset g ≠ 0 → E (.assertion .pagerFrameFreeAligned) k)
    (hplace : ∀ k', k.sosProcs pid = .placeholder → E .placeholder k')
    (hQ : k.sosProcs pid ≠ .placeholder → ∀ k', Idle { k.frameFree g with
      allocLimit := k.allocLimit + 1 } k' →
      k' = { k.frameFree g with allocLimit := k.allocLimit + 1, sosProcs := k'.sosProcs } →
      Q () k') :
    Wp (pagerFrameFree (some pid) g) k Q E := by
  unfold pagerFrameFree
  simp only [wp_bind, wp_assert, wp_frameFree, wp_modify, wp_get]
  refine ⟨fun _ => ?_, fun h => halign (by simpa using h)⟩
  split
  · next hn =>
    exact wp_pure.mpr (hQ (by rw [show k.sosProcs pid = _ from hn]; simp) _ (.refl _) rfl)
  · next hn => exact wp_throw.mpr (hplace _ hn)
  · next p hp =>
    refine wp_modify.mpr (hQ (by rw [show k.sosProcs pid = _ from hp]; simp) _ ?_ updProcess_rest)
    exact idle_updProcess (fun _ => rfl) (fun _ => rfl) (fun _ => ⟨rfl, rfl⟩)

/-- A page has been written: its request leaves the queue and its frame is free. -/
theorem written_rest {f : Nat} {n : Int} (hactive : k.requestActive = true)
    (h₁ : k' = { k with requests := rest })
    (hidle : Idle { k'.frameFree f with allocLimit := n } k'') :
    k''.requests = rest ∧ k''.requestActive = true := by
  rw [hidle.requests, hidle.requestActive, h₁]
  exact ⟨rfl, hactive⟩

theorem written_step {so : PagerRequest} (hreq : k.requests = .swapout so :: rest)
    (h₁ : k' = { k with requests := rest })
    (hidle : Idle { k'.frameFree so.addr with allocLimit := k'.allocLimit + 1 } k'') :
    Pool.Step M b k.pool k''.pool := by
  have hw : k.pool.writing = so.addr ::ₘ k'.pool.writing := by
    rw [h₁]
    show Multiset.ofList (k.requests.filterMap _) = _ ::ₘ Multiset.ofList _
    rw [hreq]
    rfl
  have hst : Pool.Step M b k.pool _ := .written (f := so.addr)
    (by rw [hw]; exact Multiset.mem_cons_self ..)
  have hpool : k'.pool = { k.pool with writing := k'.pool.writing } := by rw [h₁]; rfl
  have h0 : Kernel.pool { k'.frameFree so.addr with allocLimit := k'.allocLimit + 1 } =
      { (k'.frameFree so.addr).pool with limit := k'.pool.limit + 1 } := rfl
  rw [hidle.pool, h0, pool_frameFree, hpool]
  rw [hw, Multiset.erase_cons_head] at hst
  exact hst

theorem finishSwapout_handles (hc : CallsServe M b c) (hs : Shape k)
    (hactive : k.requestActive = true) : Handles M b (finishSwapout c) k := by
  unfold finishSwapout
  rw [Handles, wp_bind, wp_requestsPeek]
  refine ⟨fun _ => trivial, fun r rest hreq => ?_⟩
  cases r with
  | swapin pr | elfload er => exact wp_throw.mpr trivial
  | swapout so =>
    dsimp only
    rw [wp_bind]
    refine wp_requestsUnshift (fun _ => trivial) fun r' rest' hreq' k₁ h₁ => ?_
    have hrest : rest' = rest := by
      rw [hreq] at hreq'
      exact (List.cons.inj hreq').2.symm
    subst hrest
    rw [wp_bind]
    refine pagerFrameFree_some_spec (fun _ => trivial) (fun _ _ => trivial) fun _ k₂ hidle _ => ?_
    have hstep : Pool.Step M b k.pool k₂.pool := written_step hreq h₁ hidle
    obtain ⟨hreq₂, hactive₂⟩ := written_rest hactive h₁ hidle
    have hno : ∀ r ∈ k₂.requests, r.isSwapout = false := fun r hr =>
      hs.tail r (by rw [hreq]; rw [hreq₂] at hr; exact hr)
    rw [wp_bind, wp_peekSwapin]
    refine ⟨fun _ => trivial, fun _ _ _ _ => trivial, fun pr rest₂ hreq₃ => ?_⟩
    rw [wp_bind, wp_get]
    split
    · -- as in `finishSwapin`, a dead process leads to a fault
      simp only [wp_bind]
      exact Wp.trivial.imp fun _ _ _ => Wp.trivial.imp fun _ _ _ => wp_throw.mpr trivial
    · exact wp_throw.mpr trivial
    · exact (finishSwapoutFor_handles hc hactive₂ hno).imp fun _ k' h =>
        ⟨.head hstep h.steps, h.shape⟩

/-! ## The stages -/

/-- The state a stage is in after calls that leave the queue alone. -/
structure Staged (r : Request) (rest : List Request) (k : Kernel) : Prop where
  requests : k.requests = r :: rest
  shape : Shape k

theorem Staged.of_quiet (h : Staged r rest k) (hq : Quiet M b k k') : Staged r rest k' :=
  ⟨hq.requests.trans h.requests, h.shape.of_eq hq.requests hq.requestActive⟩

theorem Staged.setHead {r' : Request} (h : Staged r rest k) (hw : r'.writing = r.writing) :
    Handles M b (setHead r') k :=
  setHead_handles h.requests h.shape hw

theorem Staged.setHead_bind {r' : Request} {β : Type} {m : PagerM β} (h : Staged r rest k)
    (hw : r'.writing = r.writing) (hm : ∀ k', Staged r' rest k' → Handles M b m k') :
    Handles M b (do Sos.setHead r'; m) k := by
  have hhead := (h.setHead (M := M) (b := b) hw).and (modify_eq (E := fun _ _ => True))
  refine wp_bind.mpr (hhead.mono (fun _ k' hk => ?_) (fun _ _ _ => trivial))
  refine (hm k' ⟨?_, hk.1.shape⟩).imp fun _ k'' hh => hk.1.trans hh
  rw [hk.2, h.requests]
  rfl

/-- A stage that leaves the queue alone handles. -/
theorem Quiets.handles {α : Type} {m : PagerM α} (h : Quiets M b m k) (hs : Shape k) :
    Handles M b m k :=
  h.imp fun _ _ hq => ⟨hq.steps, hs.of_eq hq.requests hq.requestActive⟩

theorem continueSwapin_handles {vfsRval : Int} (hc : CallsServe M b c)
    (h : Staged (.swapin pr) rest k) (hactive : k.requestActive = true)
    (hclash : b = false → pr.stage = some .swapinClose →
      k.pool.NoClash pr.pid (pageNo pr.addr)) :
    Handles M b (continueSwapin c pr vfsRval) k := by
  unfold continueSwapin
  split
  · refine Quiets.bind (.of_keeps (idle_swapfileSetFd _ _)) fun _ k₁ q₁ => ?_
    refine Quiets.bind .of_lookupEntry fun entry k₂ q₂ => ?_
    refine Quiets.bind (.of_keeps (keeps_swapfileGetFd idle_messaging.toClosed _))
      fun fd k₃ q₃ => ?_
    refine Quiets.bind (.of_keeps (idle_vfsCall _)) fun _ k₄ q₄ => ?_
    exact ((((h.of_quiet q₁).of_quiet q₂).of_quiet q₃).of_quiet q₄).setHead rfl
  · refine Quiets.bind (.of_keeps (idle_readRest _)) fun _ k₁ q₁ => ?_
    exact (h.of_quiet q₁).setHead rfl
  · refine Quiets.bind .of_assert fun _ k₁ q₁ => ?_
    refine Quiets.bind .of_assert fun _ k₂ q₂ => ?_
    refine Quiets.bind (.of_keeps (keeps_buffers idle_messaging))
      fun _ k₃ q₃ => ?_
    have h₃ := ((h.of_quiet q₁).of_quiet q₂).of_quiet q₃
    refine h₃.setHead_bind rfl fun k₄ h₄ => ?_
    refine Quiets.bind .of_assert fun _ k₅ q₅ => ?_
    have h₅ := h₄.of_quiet q₅
    rw [Handles, wp_ite]
    refine ⟨fun _ => ?_, fun _ => (Quiets.of_keeps (idle_readRest _)).handles h₅.shape⟩
    refine Quiets.bind (.of_keeps (idle_swapfileClose _)) fun _ k₆ q₆ => ?_
    exact (h₅.of_quiet q₆).setHead rfl
  · next hstage =>
    split
    · exact wp_throw.mpr trivial
    · refine (finishSwapin_handles (P := k.pool) hc h.shape hactive ?_).imp fun _ k' hh =>
        ⟨hh.1, hh.2⟩
      intro pr' rest' hreq'
      rw [h.requests] at hreq'
      simp only [List.cons.injEq, Request.swapin.injEq] at hreq'
      rw [← hreq'.1]
      exact ⟨.inl rfl, fun hb => hclash hb hstage⟩
    · refine finishSwapelf_handles hc h.shape hactive ?_
      intro hb pr' rest' hreq'
      rw [h.requests] at hreq'
      simp only [List.cons.injEq, Request.swapin.injEq] at hreq'
      rw [← hreq'.1]
      exact hclash hb hstage
  · exact wp_throw.mpr trivial

theorem continueSwapout_handles {vfsRval : Int} (hc : CallsServe M b c)
    (h : Staged (.swapout pr) rest k) (hactive : k.requestActive = true) :
    Handles M b (continueSwapout c pr vfsRval) k := by
  unfold continueSwapout
  refine Quiets.bind .of_assert fun _ k₀ q₀ => ?_
  have h₀ := h.of_quiet q₀
  split
  · refine Quiets.bind (.of_keeps (idle_swapfileSetFd _ _)) fun _ k₁ q₁ => ?_
    refine Quiets.bind (.of_keeps (keeps_swapfileGetFd idle_messaging.toClosed _))
      fun fd k₂ q₂ => ?_
    refine Quiets.bind (.of_keeps (idle_vfsCall _)) fun _ k₃ q₃ => ?_
    exact (((h₀.of_quiet q₁).of_quiet q₂).of_quiet q₃).setHead rfl
  · refine Quiets.bind .of_assert fun _ k₁ q₁ => ?_
    rw [Handles, wp_ite]
    refine ⟨fun _ => ?_, fun _ => ?_⟩
    · refine Quiets.bind (.of_keeps (idle_swapfileClose _)) fun _ k₂ q₂ => ?_
      exact ((h₀.of_quiet q₁).of_quiet q₂).setHead rfl
    · refine Quiets.bind (.of_keeps (keeps_buffers idle_messaging))
        fun _ k₂ q₂ => ?_
      refine Quiets.bind (.of_keeps (keeps_swapfileGetFd idle_messaging.toClosed _))
        fun fd k₃ q₃ => ?_
      refine Quiets.bind (.of_keeps (idle_vfsCall _)) fun _ k₄ q₄ => ?_
      exact ((((h₀.of_quiet q₁).of_quiet q₂).of_quiet q₃).of_quiet q₄).setHead rfl
  · exact finishSwapout_handles hc h₀.shape (q₀.requestActive.trans hactive)
  · exact wp_throw.mpr trivial

end Sos
