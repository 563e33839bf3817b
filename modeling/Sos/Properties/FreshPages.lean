import Sos.Simulation.Finish
import Sos.Crowd

/-!
# The first contents of a page

A page of the heap or the stack that has never been written gets a frame in one of three ways: at
once in `pagerAction`, in `startPagerRequest` when a frame has become free while the request was
waiting, or in `finishSwapout`. Only the last of these clears the frame.
-/

namespace Sos

open Hoare

variable {k k' k₁ : Kernel} {c : Calls} {pr : PagerRequest}

/-! ## States and steps -/

/-- A fault on a page of the heap or the stack that has never been written. -/
structure FreshFault (k : Kernel) (pr : PagerRequest) : Prop where
  region : ∃ p r, k.sosProcs pr.pid = .pcb p ∧ p.Grants pr r ∧ r.mapDirectly = false ∧
    (r.type = .heap ∨ r.type = .stack)
  entry : k.entryOf pr = {}
  callback : pr.callback = .pagerContinue

/-- A frame can be had, and one for the page table if that is missing. -/
structure FrameReady (k : Kernel) (pr : PagerRequest) : Prop where
  limit : 0 < k.allocLimit
  free : k.HasTable pr.pid (pageNo pr.addr) ∧ k.freeFrames ≠ [] ∨ 2 ≤ k.freeFrames.length
  aligned : ∀ f ∈ k.freeFrames, pageOffset f = 0

/-- A page has been written out to make room for the request behind it, which is next. -/
structure SwapoutReady (k : Kernel) (pr : PagerRequest) : Prop where
  head : ∃ out rest, k.requests = .swapout out :: .swapin pr :: rest ∧
    k.sosProcs out.pid ≠ .placeholder ∧ out.addr ≠ 0 ∧ pageOffset out.addr = 0
  active : k.requestActive = true
  pinned : k.pinnedFrame = 0
  limit : 0 ≤ k.allocLimit
  table : k.HasTable pr.pid (pageNo pr.addr)
  aligned : ∀ f ∈ k.freeFrames, pageOffset f = 0

/-- How a page comes to its frame. -/
inductive FrameWay
  | atOnce | fromQueue | bySwapping
deriving DecidableEq, Repr

/-- The calls with nothing to follow: a step goes as far as to where the next request would be
started. -/
def resting : Calls where
  startRequest := pure ()
  pager := pager { startRequest := pure (), pager := fun _ => pure () }

/-- The step in which the page gets its frame. -/
def FrameWay.step (pr : PagerRequest) : FrameWay → PagerM Unit
  | .atOnce => resting.pager pr
  | .fromQueue => startPagerRequest resting
  | .bySwapping => finishSwapout resting

/-- The states in which it is taken. -/
def FrameWay.Ready (pr : PagerRequest) (k : Kernel) : FrameWay → Prop
  | .atOnce => FrameReady k pr
  | .fromQueue => FrameReady k pr ∧ (∃ rest, k.requests = .swapin pr :: rest) ∧ k.pinnedFrame = 0
  | .bySwapping => SwapoutReady k pr

/-- Addresses the process has no business with: those of free frames, of the pages of others, and of
a page of another that is being written out. -/
def Kernel.Foreign (k : Kernel) (pid : Pid) (a : Nat) : Prop :=
  (∃ f ∈ k.freeFrames, f ≤ a ∧ a < f + pageSize) ∨
  (∃ q n, q ≠ pid ∧ (k.pool.pte q n).swap = false ∧ (k.pool.pte q n).addr ≠ 0 ∧
    (k.pool.pte q n).addr ≤ a ∧ a < (k.pool.pte q n).addr + pageSize) ∨
  ∃ out ∈ k.requests.head?, ∃ o, out = .swapout o ∧ o.pid ≠ pid ∧ o.addr ≤ a ∧
    a < o.addr + pageSize

/-- The states differ only in what memory holds at such addresses. -/
def Kernel.AgreesFor (pid : Pid) (k k' : Kernel) : Prop :=
  k' = { k with memory := k'.memory } ∧ ∀ a, ¬ k.Foreign pid a → k'.memory a = k.memory a

/-- The page is mapped after the step, with the contents `g`. -/
def GivesPage (m : PagerM Unit) (pr : PagerRequest) (k : Kernel) (g : Nat → UInt8) : Prop :=
  ∃ k' f, m k = .ok () k' ∧ k'.mmu pr.pid (pageNo pr.addr) = some f ∧
    ∀ i < pageSize, k'.memory (f + i) = g i

/-- In all states that differ from `k` only in foreign memory, and in `k`, the process gets a page
of zeros. -/
def FrameWay.Clean (way : FrameWay) (pr : PagerRequest) (k : Kernel) : Prop :=
  ∀ k', k.AgreesFor pr.pid k' →
    GivesPage (way.step pr) pr k (fun _ => 0) ∧ GivesPage (way.step pr) pr k' (fun _ => 0)

/-! ## Serving the fault -/

/-- The page has got one of the free frames. -/
structure Given (pr : PagerRequest) (k k' : Kernel) : Prop where
  frame : ∃ f ∈ k.freeFrames, k'.mmu pr.pid (pageNo pr.addr) = some f ∧
    k'.entryOf pr = { addr := f, ref := true }
  table : k'.HasTable pr.pid (pageNo pr.addr)
  rest : k'.memory = k.memory ∧ k'.requests = k.requests ∧ k'.requestActive = k.requestActive ∧
    k'.pinnedFrame = k.pinnedFrame

theorem mem_freeFrames_of_cons {f : Nat} {rest : List Nat} (h : k.free = f :: rest) (hf : f ≠ 0) :
    f ∈ k.freeFrames := by
  unfold Kernel.freeFrames
  simp [h, hf]

/-- What is free after a look-up was free before. -/
theorem Looked.freeFrames {pid : Pid} {addr : Nat} (h : Looked pid addr k k₁) :
    k₁.freeFrames ⊆ k.freeFrames := by
  cases h with
  | found => exact fun _ hf => hf
  | @made p g rest hp hnone hfree hg =>
    intro f hf
    have hf' : f ∈ rest.takeWhile (· ≠ 0) := hf
    unfold Kernel.freeFrames
    rw [hfree, List.takeWhile_cons_of_pos (by simpa using hg)]
    exact List.mem_cons_of_mem _ hf'

/-- After the look-up there is a frame for the page. -/
theorem FrameReady.looked (h : FrameReady k pr) (hl : Looked pr.pid pr.addr k k₁) :
    k₁.freeFrames ≠ [] := by
  cases hl with
  | found ht =>
    rcases h.free with hone | htwo
    · exact hone.2
    · intro hnil
      simp [hnil] at htwo
  | @made p g rest hp hnone hfree hg =>
    have htwo : 2 ≤ k.freeFrames.length := by
      refine h.free.resolve_left ?_
      rintro ⟨⟨q, t, hq, ht⟩, -⟩
      rw [hp] at hq
      injection hq with hq
      subst hq
      simp [hnone] at ht
    intro hnil
    have hnil' : rest.takeWhile (· ≠ 0) = [] := hnil
    unfold Kernel.freeFrames at htwo
    rw [hfree, List.takeWhile_cons_of_pos (by simpa using hg), hnil'] at htwo
    simp at htwo

theorem pagerAction_given (hf : FreshFault k pr) (hr : FrameReady k pr) :
    Wp (pagerAction c pr) k (fun b k' => b = true ∧ Given pr k k') fun _ _ => False := by
  obtain ⟨p, r, hp, hgrants, hdir, -⟩ := hf.region
  have hentry := hf.entry
  have hlim := hr.limit
  refine wp_pagerAction
    { null := fun h => by simp [hp] at h
      placeholder := fun h => by simp [hp] at h
      delete := fun q hq hno => ?_
      noTable := fun hnil hno => ?_
      swap := fun q s k₁ _ hswap => by simp [hentry] at hswap
      resident := fun q s k₁ k' _ _ haddr => by simp [hentry] at haddr
      direct := fun q s k₁ k' hasked _ _ hdirect => ?_
      wait := fun q s k₁ _ _ _ _ h0 => by omega
      exhausted := fun q s k₁ k₂ hasked _ _ _ _ hnil => absurd hnil (hr.looked hasked.looked)
      fresh := fun q s k₁ f rest k₂ k' hasked _ _ _ _ hfree hne hrec hent => ⟨rfl, ?_⟩
      badLimit := fun h => by omega
      badEntry := fun h => absurd (by rw [hentry]; rfl) h
      badFrame := fun k₁ f rest hl hfree hoff => ?_ }
  · rw [hp] at hq
    injection hq with hq
    exact absurd (hq ▸ hgrants) (hno r)
  · rcases hr.free with hone | htwo
    · exact hno hone.1
    · simp [hnil] at htwo
  · have hq := hasked.pcb
    rw [hp] at hq
    injection hq with hq
    have hs := hasked.grants.1
    rw [← hq, hgrants.1] at hs
    injection hs with hs
    rw [← hs, hdir] at hdirect
    simp at hdirect
  · refine ⟨⟨f, hasked.looked.freeFrames (mem_freeFrames_of_cons hfree hne), ?_, ?_⟩, ?_, ?_⟩
    · show k'.pool.mmu pr.pid (pageNo pr.addr) = some f
      rw [hent.pool]
      simp [Pool.setMmu]
    · show k'.pool.pte pr.pid (pageNo pr.addr) = _
      rw [hent.pool]
      simp [Pool.setMmu, Pool.setPte]
    · exact hent.repaged.table _ _ ((Repaged.of_core hrec.core).table _ _ hasked.table)
    · rw [hent.rest, hrec.rest]
      unfold Kernel.frameTaken
      dsimp only
      rw [hasked.grow.rest]
      exact ⟨rfl, rfl, rfl, rfl⟩
  · have hne : f ≠ 0 := fun h0 => hoff (by rw [h0]; rfl)
    exact fun _ => hoff (hr.aligned f (hl.freeFrames (mem_freeFrames_of_cons hfree hne)))

/-- The answer to the process changes nothing else. -/
theorem runCallback_answers {p : Process} (hp : k.sosProcs pr.pid = .pcb p)
    (hcb : pr.callback = .pagerContinue) :
    Wp (runCallback c pr) k (fun _ k' => k' = { k with replies := k'.replies })
      fun _ _ => False := by
  have htid : Returns (processGetTid pr.pid) k pr.pid k := by
    unfold processGetTid
    rw [Returns, wp_bind, wp_get, hp]
    exact wp_pure.mpr ⟨rfl, rfl⟩
  unfold runCallback
  rw [hcb]
  dsimp only
  unfold pagerContinue syscallReplyV
  rw [htid.bind_iff, wp_bind, wp_get, hp]
  dsimp only
  rw [wp_modify]
  unfold Kernel.reply
  split <;> rfl

/-- One of the free frames is mapped, with the contents it had. -/
structure Lent (pr : PagerRequest) (k k' : Kernel) : Prop where
  frame : ∃ f ∈ k.freeFrames, k'.mmu pr.pid (pageNo pr.addr) = some f
  memory : k'.memory = k.memory

theorem pager_lends (hf : FreshFault k pr) (hr : FrameReady k pr) :
    Wp (resting.pager pr) k (fun _ k' => Lent pr k k') fun _ _ => False := by
  show Wp (pager _ pr) k _ _
  unfold pager
  rw [wp_bind]
  refine (pagerAction_given hf hr).imp fun b k₁ ⟨hb, hgiven⟩ => ?_
  obtain ⟨f, hfree, hmmu, -⟩ := hgiven.frame
  obtain ⟨p, -, hp, -⟩ := hgiven.table
  rw [if_pos hb, wp_bind]
  refine (runCallback_answers hp hf.callback).imp fun _ k₂ h₂ => ?_
  have hlent : Lent pr k k₂ := by
    rw [h₂]
    exact ⟨⟨f, hfree, hmmu⟩, hgiven.rest.1⟩
  rw [wp_bind, wp_get, wp_ite]
  exact ⟨fun _ => wp_pure.mpr hlent, fun _ => wp_pure.mpr hlent⟩

/-- The fault is still the same after a change that keeps regions and entry. -/
theorem FreshFault.repaged (hf : FreshFault k pr) (hr : Repaged k k₁)
    (he : k₁.entryOf pr = k.entryOf pr) : FreshFault k₁ pr := by
  obtain ⟨p, r, hp, hgrants, hrest⟩ := hf.region
  obtain ⟨q, hq, hlike⟩ := hr.pcb _ p hp
  refine ⟨⟨q, r, hq, ?_, hrest⟩, he.trans hf.entry, hf.callback⟩
  unfold Process.Grants
  rw [hlike.regions]
  exact hgrants

theorem startPagerRequest_lends (hf : FreshFault k pr) (hr : FrameReady k pr) {rest : List Request}
    (hreq : k.requests = .swapin pr :: rest) (hpin : k.pinnedFrame = 0) :
    Wp (startPagerRequest resting) k (fun _ k' => Lent pr k k') fun _ _ => False := by
  obtain ⟨p, r, hp, -⟩ := hf.region
  have hlim := hr.limit
  refine wp_startPagerRequest (fun h => by simp [hreq] at h) (fun er rest' h => by simp [hreq] at h)
    fun pr' r' rest' hreq' hr' => ?_
  obtain rfl : pr' = pr := by
    rw [hreq] at hreq'
    rcases hr' with rfl | rfl
    · simp at hreq'
    · simp only [List.cons.injEq, Request.swapin.injEq] at hreq'
      exact hreq'.1.symm
  refine
    { null := fun h => by simp [hp] at h
      placeholder := fun h => by simp [hp] at h
      noTable := fun hnil hno => ?_
      swap := fun k₁ _ _ hswap => by simp [hf.entry] at hswap
      pinned := fun k₁ _ _ h => h hpin
      restart := fun k₁ hl _ _ _ => ?_
      full := fun k₁ _ _ _ _ h => by omega }
  · rcases hr.free with hone | htwo
    · exact hno hone.1
    · simp [hnil] at htwo
  · -- the request is served from a state with the page table in place
    have hentry : k₁.entryOf pr' = k.entryOf pr' := by
      unfold Kernel.entryOf
      rw [hl.grow.pte]
    have hf₁ := hf.repaged (.of_grow hl.grow) hentry
    have hr₁ : FrameReady k₁ pr' :=
      ⟨by rw [hl.grow.allocLimit]; exact hlim, .inl ⟨hl.table, hr.looked hl⟩,
        fun f hfree => hr.aligned f (hl.freeFrames hfree)⟩
    refine (pager_lends (k := { k₁ with
        requestActive := false
        overrun := k₁.overrun || k₁.overruns pr'
        requests := rest' }) ⟨hf₁.region, hf₁.entry, hf₁.callback⟩
      ⟨hr₁.limit, hr₁.free, hr₁.aligned⟩).imp fun _ k' h => ?_
    obtain ⟨f, hfree, hmmu⟩ := h.frame
    refine ⟨⟨f, hl.freeFrames hfree, hmmu⟩, ?_⟩
    rw [h.memory]
    show k₁.memory = _
    rw [hl.grow.rest]

/-- The frame is cleared after it has been entered. -/
theorem finishSwapoutFor_clears (hf : FreshFault k pr) (hr : FrameReady k pr)
    (hpin : k.pinnedFrame = 0) (hactive : k.requestActive = true) (hreq : k.requests ≠ []) :
    Wp (finishSwapoutFor resting pr) k
      (fun _ k' => ∃ f, k'.mmu pr.pid (pageNo pr.addr) = some f ∧
        ∀ i < pageSize, k'.memory (f + i) = 0) fun _ _ => False := by
  unfold finishSwapoutFor
  rw [wp_bind, wp_discard]
  refine (pagerAction_given hf hr).imp fun b k₁ ⟨_, hgiven⟩ => ?_
  obtain ⟨f, -, hmmu, hentry⟩ := hgiven.frame
  obtain ⟨-, hreq₁, hactive₁, hpin₁⟩ := hgiven.rest
  have hfill : Returns (fillFrame f) k₁ ()
      { k₁ with memory := blit k₁.memory f pageSize (fun _ => 0) } := by
    unfold fillFrame
    rw [Returns, wp_bind, wp_get, if_neg (by rw [hpin₁]; simp [hpin])]
    exact wp_set.mpr ⟨rfl, rfl⟩
  rw [wp_bind, wp_lookupEntry_of_hasTable hgiven.table,
    show k₁.pool.pte pr.pid (pageNo pr.addr) = _ from hentry, hfill.bind_iff, wp_bind,
    wp_prepareData_of_hasTable (by rw [pageNo_pageAlign]; exact hgiven.table)]
  refine ⟨fun _ => ?_, fun h => h (pageOffset_pageAlign _)⟩
  obtain ⟨p, -, hp, -⟩ := hgiven.table
  rw [wp_bind]
  refine (runCallback_answers (by exact hp) hf.callback).imp fun _ k₂ h₂ => ?_
  have hcleared : ∃ f, k₂.mmu pr.pid (pageNo pr.addr) = some f ∧
      ∀ i < pageSize, k₂.memory (f + i) = 0 := by
    rw [h₂]
    exact ⟨f, hmmu, fun i hi => blit_apply (f := k₁.memory) (g := fun _ => 0) hi⟩
  unfold dequeueRequest
  rw [wp_bind, wp_get, wp_bind, wp_assert]
  have hactive₂ : k₂.requestActive = true := by
    rw [h₂]
    exact hactive₁.trans hactive
  refine ⟨fun _ => ?_, fun h => by simp [hactive₂] at h⟩
  rw [wp_bind, wp_modify, wp_bind]
  refine wp_requestsUnshift (fun h => ?_) fun r rest _ k₃ h₃ => ?_
  · rw [h₂] at h
    exact hreq (hreq₁ ▸ h)
  · have hcleared₃ : ∃ f, k₃.mmu pr.pid (pageNo pr.addr) = some f ∧
        ∀ i < pageSize, k₃.memory (f + i) = 0 := by
      rw [h₃]
      exact hcleared
    rw [wp_bind, wp_get, wp_ite]
    exact ⟨fun _ => wp_pure.mpr hcleared₃, fun _ => wp_pure.mpr hcleared₃⟩

theorem finishSwapout_clears (hf : FreshFault k pr) (h : SwapoutReady k pr) :
    Wp (finishSwapout resting) k
      (fun _ k' => ∃ f, k'.mmu pr.pid (pageNo pr.addr) = some f ∧
        ∀ i < pageSize, k'.memory (f + i) = 0) fun _ _ => False := by
  obtain ⟨out, rest, hreq, hplace, hne, halign⟩ := h.head
  unfold finishSwapout
  rw [wp_bind, wp_requestsPeek]
  refine ⟨fun h0 => by simp [hreq] at h0, fun r rest' hreq' => ?_⟩
  obtain rfl : r = .swapout out := (List.cons.inj (hreq'.symm.trans hreq)).1
  dsimp only
  rw [wp_bind]
  refine wp_requestsUnshift (fun h0 => by simp [hreq] at h0) fun r'' rest'' hreq'' k₁ h₁ => ?_
  obtain rfl : rest'' = .swapin pr :: rest := (List.cons.inj (hreq''.symm.trans hreq)).2
  rw [wp_bind]
  refine pagerFrameFree_some_spec (fun h0 => h0 halign) (fun _ h0 => hplace (by rw [← h0, h₁]))
    fun _ k₂ hidle hrest => ?_
  have hfree : k₂.freeFrames = out.addr :: k.freeFrames := by
    unfold Kernel.freeFrames
    rw [hrest, h₁]
    show List.takeWhile _ (out.addr :: k.free) = _
    rw [List.takeWhile_cons_of_pos (by simpa using hne)]
  have hreq₂ : k₂.requests = .swapin pr :: rest := by rw [hrest, h₁]; rfl
  have hrepaged : Repaged k k₂ :=
    (Repaged.of_sosProcs_eq (by rw [h₁]; rfl)).trans (.of_idle hidle)
  have hentry : k₂.entryOf pr = k.entryOf pr := by
    unfold Kernel.entryOf
    rw [hidle.pool, h₁]
    rfl
  have hr₂ : FrameReady k₂ pr := by
    refine ⟨?_, .inl ⟨hrepaged.table _ _ h.table, by simp [hfree]⟩, fun f hf => ?_⟩
    · have hlim := h.limit
      rw [hrest, h₁]
      show 0 < k.allocLimit + 1
      omega
    · rw [hfree] at hf
      rcases List.mem_cons.mp hf with rfl | hf
      · exact halign
      · exact h.aligned f hf
  rw [wp_bind, wp_peekSwapin]
  refine ⟨fun h0 => by simp [hreq₂] at h0, fun r rest₂ hr hno => ?_, fun pr' rest₂ hr => ?_⟩
  · rw [hreq₂] at hr
    exact hno pr (List.cons.inj hr).1.symm
  · obtain rfl : pr' = pr := by
      rw [hreq₂] at hr
      injection hr with hr
      injection hr with hr
      exact hr.symm
    have hf₂ := hf.repaged hrepaged hentry
    obtain ⟨p, -, hp, -⟩ := hf₂.region
    rw [wp_bind, wp_get, hp]
    refine finishSwapoutFor_clears hf₂ hr₂ ?_ ?_ (by simp [hreq₂])
    · rw [hrest, h₁]
      exact h.pinned
    · rw [hrest, h₁]
      exact h.active

/-! ## Which pages are clean -/

theorem FreshFault.with_memory (h : FreshFault k pr) (m : Nat → UInt8) :
    FreshFault { k with memory := m } pr := ⟨h.region, h.entry, h.callback⟩

theorem FrameReady.with_memory (h : FrameReady k pr) (m : Nat → UInt8) :
    FrameReady { k with memory := m } pr := ⟨h.limit, h.free, h.aligned⟩

theorem SwapoutReady.with_memory (h : SwapoutReady k pr) (m : Nat → UInt8) :
    SwapoutReady { k with memory := m } pr :=
  ⟨h.head, h.active, h.pinned, h.limit, h.table, h.aligned⟩

/-- What is written over a frame when a page is swapped out for it is zeros, in any memory. -/
theorem clean_of_swapping (hf : FreshFault k pr) (h : SwapoutReady k pr) :
    FrameWay.bySwapping.Clean pr k := by
  have hgives : ∀ k, FreshFault k pr → SwapoutReady k pr →
      GivesPage (finishSwapout resting) pr k fun _ => 0 := fun k hf h => by
    obtain ⟨_, k', hok, f, hmmu, hzero⟩ := (finishSwapout_clears hf h).returns
    exact ⟨k', f, hok, hmmu, hzero⟩
  rintro k' ⟨hk', -⟩
  rw [hk']
  exact ⟨hgives k hf h, hgives _ (hf.with_memory _) (h.with_memory _)⟩

/-- Memory with ones in the free frames. -/
def Kernel.smudged (k : Kernel) (a : Nat) : UInt8 :=
  if k.freeFrames.any (fun f => f ≤ a && a < f + pageSize) then 1 else k.memory a

theorem agreesFor_smudged (pid : Pid) (k : Kernel) :
    k.AgreesFor pid { k with memory := k.smudged } := by
  refine ⟨rfl, fun a ha => if_neg fun hany => ha (.inl ?_)⟩
  simpa using hany

/-- A step that lends a free frame as it is does not give a clean page. -/
theorem not_clean_of_lends {way : FrameWay}
    (h : ∀ m, Wp (way.step pr) { k with memory := m }
      (fun _ k' => Lent pr { k with memory := m } k') fun _ _ => False) : ¬ way.Clean pr k := by
  intro hclean
  obtain ⟨k', f, hok, hmmu, hzero⟩ := (hclean _ (agreesFor_smudged pr.pid k)).2
  have hlent := (h k.smudged).ok hok
  obtain ⟨g, hg, hmmu'⟩ := hlent.frame
  obtain rfl : f = g := Option.mem_unique hmmu hmmu'
  have hbyte := hzero 0 (by decide)
  rw [hlent.memory] at hbyte
  have hone : k.smudged (f + 0) = 1 := if_pos (List.any_eq_true.mpr ⟨f, hg, by simp [pageSize]⟩)
  exact absurd (hone.symm.trans hbyte) (by decide)

/-- **A new page is clean exactly if a page has been swapped out for it.** A frame that is free at
once, or has become free while the request was waiting, is mapped with what it held before. -/
theorem fresh_page_clean_iff {way : FrameWay} (hf : FreshFault k pr) (hr : way.Ready pr k) :
    way.Clean pr k ↔ way = .bySwapping := by
  cases way with
  | atOnce =>
    refine iff_of_false (not_clean_of_lends fun m => ?_) (by simp)
    exact pager_lends (hf.with_memory m) (FrameReady.with_memory hr m)
  | fromQueue =>
    obtain ⟨hready, ⟨rest, hreq⟩, hpin⟩ := hr
    refine iff_of_false (not_clean_of_lends fun m => ?_) (by simp)
    exact startPagerRequest_lends (hf.with_memory m) (hready.with_memory m) hreq hpin
  | bySwapping => exact iff_of_true (clean_of_swapping hf hr) rfl

/-- The stack `addBuiltinRegions` makes. -/
def stackRegion : Region :=
  { type := .stack, base := stackTop - oneMeg, size := oneMeg,
    rights := regionRead ||| regionWrite }

/-- A process with a stack and its page tables. -/
def stackProcess : Process where
  state := .alive
  pagetable := { frame := 0x2000, pages2 := fun _ => some ⟨0x3000, fun _ => {}⟩ }
  regions := [stackRegion]
  inc := 1

/-- A fault on the top page of the stack. -/
def stackFault : PagerRequest :=
  { pid := 2, addr := stackTop - pageSize, rights := regionRead, sf := .default
    callback := .pagerContinue, inc := 1 }

theorem fresh_page_clean_iff_swapping :
    ∃ k, FreshFault k stackFault ∧ FrameWay.bySwapping.Ready stackFault k ∧
      FrameWay.bySwapping.Clean stackFault k := by
  let out : PagerRequest :=
    { pid := 2, addr := 0x8000, rights := regionRead, sf := .default, callback := .null, inc := 1 }
  let k := { coldStart 4 with
    requests := [.swapout out, .swapin stackFault]
    requestActive := true }.setSlot 2 (.pcb stackProcess)
  have hp : k.sosProcs 2 = .pcb stackProcess := setSlot_self
  have hentry : k.entryOf stackFault = {} := by
    show (k.sosProcs 2).pte (pageNo stackFault.addr) = _
    rw [hp]
    rfl
  have hfault : FreshFault k stackFault :=
    ⟨⟨stackProcess, stackRegion, hp, ⟨by decide, by decide⟩, rfl, .inr rfl⟩, hentry, rfl⟩
  have hready : FrameWay.bySwapping.Ready stackFault k :=
    ⟨⟨out, [], rfl, by rw [hp]; simp, by decide, by decide⟩, rfl, rfl, by decide,
      ⟨stackProcess, _, hp, rfl⟩, by decide⟩
  exact ⟨k, hfault, hready, (fresh_page_clean_iff hfault hready).mpr rfl⟩

/-- The first page of the stack of a process that has just been started. -/
theorem new_stack_page_not_clean :
    ∃ k, Reachable (coldFrames 10) (fun _ _ => True) k ∧ FreshFault k stackFault ∧
      FrameWay.atOnce.Ready stackFault k ∧ ¬ FrameWay.atOnce.Clean stackFault k := by
  obtain ⟨k, hr, hobs⟩ := reachable_of_run 10 20 [[appRegion]] (fun _ _ => True) []
    (fun k => ((k.sosProcs 2).pcb?.map fun p =>
      (p.regions.find? (findRegion stackFault.addr), p.pagetable.entry (pageNo stackFault.addr)),
      k.allocLimit, k.freeFrames))
    (v := (some (some stackRegion, {}), 1024, [0x6000, 0x7000, 0x8000, 0x9000, 0xa000, 0xb000]))
    (by decide) (by decide +kernel)
  obtain ⟨hslot, hrest⟩ := Prod.mk.inj hobs
  obtain ⟨hlim, hfree⟩ := Prod.mk.inj hrest
  obtain ⟨p, hp, hpage⟩ := Option.map_eq_some_iff.mp hslot
  obtain ⟨hfind, hentry⟩ := Prod.mk.inj hpage
  have hpcb : k.sosProcs 2 = .pcb p := Slot.pcb?_eq_some_iff.mp hp
  have hfault : FreshFault k stackFault := by
    refine ⟨⟨p, stackRegion, hpcb, ⟨hfind, by decide⟩, rfl, .inr rfl⟩, ?_, rfl⟩
    show (k.sosProcs 2).pte (pageNo stackFault.addr) = _
    rw [hpcb]
    exact hentry
  have hready : FrameReady k stackFault :=
    ⟨by rw [hlim]; decide, .inr (by rw [hfree]; decide), by rw [hfree]; decide⟩
  exact ⟨k, hr, hfault, hready, not_clean_of_lends fun m =>
    pager_lends (hfault.with_memory m) (hready.with_memory m)⟩

end Sos
