import Sos.Crowd
import Sos.Simulation.Lookup

/-!
# Running out of frames

A fault on a page that needs a frame may find none: `allocLimit` is 0, or the free list is empty.
The request then waits in the queue. `pagerFrameAlloc` tests for the first shortage before it does
its accounts, but not for the second.
-/

namespace Sos

open Hoare

variable {k k₁ k₂ : Kernel} {c c' : Calls} {pr : PagerRequest} {pid : Pid} {page : Nat}

/-- A fault on a page of ordinary memory that has no frame. `k₁` is the state in which
`pagerFrameAlloc` is called: the entry has been looked up. -/
structure NeedsFrame (k : Kernel) (pr : PagerRequest) (k₁ : Kernel) : Prop where
  region : ∃ p r, k.sosProcs pr.pid = .pcb p ∧ p.Grants pr r ∧ r.mapDirectly = false
  entry : ∃ e, lookupEntry pr.pid pr.addr k = .ok e k₁ ∧ e.swap = false ∧ e.addr = 0

/-- No frame can be had: the pager may not take one, or there is none. -/
def Kernel.NoFrame (k : Kernel) : Prop :=
  k.allocLimit = 0 ∨ 0 < k.allocLimit ∧ k.freeFrames = []

def Kernel.sizeOf (k : Kernel) (pid : Pid) : Option Int := (k.sosProcs pid).pcb?.map Process.size

/-- The calls with `retry` in the place of the `pager` that serves a request again when it is taken
from the queue. -/
def retrying (retry : PagerRequest → PagerM Unit) : Calls where
  startRequest := startRequest { startRequest := throw .outOfFuel, pager := retry }
  pager := retry

/-- The shortage leaves no trace in the accounts, and the request is not served again before a page
has been freed: neither at once, nor when it is taken from the queue while the limit is no higher
than it was. That a request is not served again is said by leaving open what serving it would do. -/
structure Kernel.FailsAtomically (k : Kernel) (pr : PagerRequest) (k₁ : Kernel) : Prop where
  refused : ∃ k₂, pagerFrameAlloc pr.pid (pageAlign pr.addr) k₁ = .ok 0 k₂ ∧
    k₂.alloced = k₁.alloced ∧ k₂.allocLimit = k₁.allocLimit ∧ k₂.sizeOf pr.pid = k₁.sizeOf pr.pid
  deferred : ∀ retry retry', pager (retrying retry) pr k = pager (retrying retry') pr k
  waiting : ∀ k' rest, k'.requests = .swapin pr :: rest → k'.allocLimit ≤ k₁.allocLimit →
    ∀ retry retry', (retrying retry).startRequest k' = (retrying retry').startRequest k'

/-! ## At the limit -/

/-- At the limit a request that is taken from the queue is not served: a page is swapped in or out
for it first. -/
theorem startPagerRequest_congr (hlim : k.allocLimit ≤ 0) :
    startPagerRequest c k = startPagerRequest c' k := by
  unfold startPagerRequest
  refine bind_congr (wp_requestsPeek.mpr ⟨fun _ => trivial, fun r rest _ => ?_⟩)
  cases r with
  | elfload er => rfl
  | swapout pr | swapin pr =>
    refine bind_congr (wp_lookupEntry (fun _ => trivial) (fun _ => trivial)
      (fun _ _ _ => trivial) ?_)
    intro k₁ hgrow _
    split
    · rfl
    · refine bind_congr (wp_get.mpr (bind_congr (wp_assert.mpr ⟨fun _ => ?_, fun _ => trivial⟩)))
      rw [if_neg (by rw [hgrow.allocLimit]; omega), if_neg (by rw [hgrow.allocLimit]; omega)]

theorem startRequest_congr (hlim : k.allocLimit ≤ 0) : startRequest c k = startRequest c' k := by
  unfold startRequest
  refine bind_congr (wp_get.mpr (bind_congr (wp_assert.mpr ⟨fun _ => ?_, fun _ => trivial⟩)))
  refine bind_congr (wp_assert.mpr ⟨fun _ => ?_, fun _ => trivial⟩)
  refine bind_congr (wp_modify.mpr (bind_congr ?_))
  refine wp_requestsPeek.mpr ⟨fun _ => trivial, fun r rest _ => ?_⟩
  cases r with
  | elfload er => rfl
  | swapout pr | swapin pr => exact startPagerRequest_congr hlim

theorem queueRequest_congr (h : ∀ k', k'.allocLimit = k.allocLimit →
    c.startRequest k' = c'.startRequest k') (r : Request) :
    queueRequest c r k = queueRequest c' r k := by
  unfold queueRequest
  refine bind_congr (wp_get.mpr ?_)
  split
  · refine bind_congr (wp_assert.mpr ⟨fun _ => ?_, fun _ => trivial⟩)
    exact bind_congr (wp_modify.mpr (h _ rfl))
  · rfl

/-- A fault that gets no frame ends in the queue. -/
theorem NeedsFrame.pager_eq (h : NeedsFrame k pr k₁)
    (hnone : Returns (pagerFrameAlloc pr.pid (pageAlign pr.addr)) k₁ 0 k₂) :
    pager c pr k = queueRequest c (.swapin pr) k₂ := by
  obtain ⟨⟨p, r, hp, ⟨hr, hrights⟩, hdir⟩, e, hlook, hswap, haddr⟩ := h
  have hget : Returns (get : PagerM Kernel) k k k := wp_get.mpr ⟨rfl, rfl⟩
  have hassert : Returns (assert (pageOffset 0 = 0) .pagerActionFrame) k₂ () k₂ :=
    wp_pure.mpr ⟨rfl, rfl⟩
  have haction : pagerAction c pr k = (do queueRequest c (.swapin pr); return false) k₂ := by
    unfold pagerAction
    rw [hget.bind_eq, hp]
    dsimp only
    rw [hr]
    dsimp only
    rw [if_neg hrights, (returns_of_run hlook).bind_eq, if_neg (by simp [hswap]),
      if_neg (by simp [haddr]), if_neg (by simp [hdir]), hnone.bind_eq, hassert.bind_eq, if_pos rfl]
  unfold pager
  rw [bind_eq_of_eq haction]
  simp only [bind_assoc, pure_bind, Bool.false_eq_true, if_false, bind_pure_unit]

/-- At the limit nothing is recorded, and the request waits. -/
theorem NeedsFrame.failsAtomically (h : NeedsFrame k pr k₁) (hlim : k₁.allocLimit = 0) :
    k.FailsAtomically pr k₁ where
  refused := ⟨k₁, (pagerFrameAlloc_limit hlim).run, rfl, rfl, rfl⟩
  deferred := fun retry retry' => by
    rw [h.pager_eq (pagerFrameAlloc_limit hlim), h.pager_eq (pagerFrameAlloc_limit hlim)]
    exact queueRequest_congr (fun k' hk' => startRequest_congr (by omega)) _
  waiting := fun k' rest _ hk' retry retry' => startRequest_congr (by omega)

/-! ## With an empty free list -/

/-- Below the limit a page is recorded, whether or not there is a frame for it. -/
theorem pagerFrameAlloc_records (hpos : 0 < k.allocLimit) :
    Wp (pagerFrameAlloc pid page) k (fun _ k' => k'.allocLimit = k.allocLimit - 1)
      fun _ _ => False := by
  unfold pagerFrameAlloc
  rw [wp_bind, wp_get, wp_bind, wp_assert]
  refine ⟨fun _ => ?_, fun h => by simp at h; omega⟩
  rw [if_neg (by omega), wp_bind, wp_frameAlloc]
  simp only [wp_bind, wp_modify, wp_pure]
  refine ⟨fun _ => ?_, fun f rest _ _ => ?_⟩
  · rw [updProcess_rest]
  · rw [updProcess_rest]
    rfl

theorem Kernel.FailsAtomically.not_pos (h : k.FailsAtomically pr k₁) : ¬ 0 < k₁.allocLimit := by
  intro hpos
  obtain ⟨k₂, hok, -, hlim, -⟩ := h.refused
  have hrec := (pagerFrameAlloc_records hpos).ok hok
  omega

/-- **Running out of frames is atomic exactly when it is the limit that has been reached.** When
the free list is empty below the limit, the page is recorded without a frame. -/
theorem out_of_frames_atomic_iff (hneed : NeedsFrame k pr k₁) (hno : k₁.NoFrame) :
    k.FailsAtomically pr k₁ ↔ k₁.allocLimit = 0 := by
  constructor
  · intro h
    exact hno.resolve_right fun hex => h.not_pos hex.1
  · exact hneed.failsAtomically

/-- A process with sixteen pages of memory and its tables, and no page yet. -/
def limitProcess : Process where
  state := .alive
  pagetable := { frame := 0x2000, pages2 := fun _ => some ⟨0x3000, fun _ => {}⟩ }
  regions := [appRegion]
  inc := 1

def limitFault : PagerRequest :=
  { pid := 2, addr := 0x10000, rights := 4, sf := .default, callback := .pagerContinue, inc := 1 }

theorem out_of_frames_atomic_iff_limit :
    ∃ k, NeedsFrame k limitFault k ∧ k.NoFrame ∧ k.FailsAtomically limitFault k := by
  let k := (coldStart 4).setSlot 2 (.pcb limitProcess)
  have hp : k.sosProcs 2 = .pcb limitProcess := setSlot_self
  have hlook : Returns (lookupEntry 2 0x10000) k {} k := lookupEntry_returns hp rfl
  have hneed : NeedsFrame k limitFault k :=
    ⟨⟨limitProcess, appRegion, hp, ⟨by decide, by decide⟩, rfl⟩, {}, hlook.run, rfl, rfl⟩
  exact ⟨k, hneed, .inl rfl, (out_of_frames_atomic_iff hneed (.inl rfl)).mpr rfl⟩

/-- The page can be read, has its table and no frame. -/
def Kernel.untouched (k : Kernel) (pid : Pid) (addr : UInt32) : Bool :=
  (k.sosProcs pid).pcb?.any fun p => p.readable addr.toNat &&
    (p.pagetable.pages2 (offset1 (pageNo addr.toNat))).any fun t =>
      t.pages (offset2 (pageNo addr.toNat)) = {}

theorem NeedsFrame.of_untouched {addr : UInt32} (h : k.untouched pid addr = true) :
    ∃ p, k.sosProcs pid = .pcb p ∧ NeedsFrame k (faultRequest pid p addr 4) k := by
  obtain ⟨p, hp, hpage⟩ := (Option.any_eq_true ..).mp h
  obtain ⟨hread, htable⟩ := (Bool.and_eq_true ..).mp hpage
  obtain ⟨t, ht, he⟩ := (Option.any_eq_true ..).mp htable
  obtain ⟨r, hfind, hrights, hdir⟩ := Process.exists_of_readable hread
  have hpcb : k.sosProcs pid = .pcb p := Slot.pcb?_eq_some_iff.mp hp
  have hlook : Returns (lookupEntry pid addr.toNat) k {} k :=
    of_decide_eq_true he ▸ lookupEntry_returns hpcb ht
  exact ⟨p, hpcb, ⟨p, r, hpcb, ⟨hfind, hrights⟩, hdir⟩, {}, hlook.run, rfl, rfl⟩

/-- A process touches the four pages there are frames for, and then a fifth. -/
def fifthPageRun : List Event :=
  [.pagefault 2 0x10000 4, .pagefault 2 0x11000 4, .pagefault 2 0x12000 4, .pagefault 2 0x13000 4]

theorem fifthPage_recorded_without_frame :
    ∃ k pr, Reachable (coldFrames 10) (fun _ _ => True) k ∧ NeedsFrame k pr k ∧ k.NoFrame ∧
      ¬ k.FailsAtomically pr k := by
  obtain ⟨k, hr, hobs⟩ := reachable_of_run 10 20 [[appRegion], [appRegion]] (fun _ _ => True)
    fifthPageRun
    (fun k => (k.untouched 2 0x14000, k.allocLimit, k.freeFrames)) (v := (true, 1020, []))
    (by decide) (by decide +kernel)
  obtain ⟨huntouched, hrest⟩ := Prod.mk.inj hobs
  obtain ⟨hlim, hfree⟩ := Prod.mk.inj hrest
  obtain ⟨p, -, hneed⟩ := NeedsFrame.of_untouched huntouched
  refine ⟨k, _, hr, hneed, .inr ⟨by rw [hlim]; decide, hfree⟩, fun h => h.not_pos ?_⟩
  rw [hlim]
  decide

end Sos
