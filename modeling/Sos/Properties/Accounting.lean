import Mathlib.Data.Set.Card
import Sos.Properties.Frames
import Sos.Properties.OutOfFrames
import Sos.Queue.Handle

/-!
# Accounts of the user frames

`allocLimit` counts the frames the pager may still take. Together with the pages recorded in
`alloced` and the frame being written out it is always `FRAME_ALLOC_LIMIT`, so that there is a page
to swap out whenever the limit is used up. What `memoryUsage` reports is the number of resident
pages as long as every page recorded got a frame.
-/

namespace Sos

open Hoare

variable {k k' : Kernel} {c : Calls} {pr : PagerRequest} {M : Set Nat}

/-- The pages that are in frames of the frame allocator. -/
def Kernel.residentPages (M : Set Nat) (k : Kernel) : Set (Pid × Page) :=
  { x | ((k.sosProcs x.1).pte x.2).swap = false ∧ ((k.sosProcs x.1).pte x.2).addr ∈ M }

/-- 1 while a page is being written out. -/
def Kernel.writingOut (k : Kernel) : Nat := if k.requests.head?.any Request.isSwapout then 1 else 0

theorem Sound.limit_account (h : Sound M k) :
    k.allocLimit + k.alloced.length + k.writingOut = frameAllocLimit := by
  have hcard : k.pool.alloced.card = k.alloced.length :=
    (Multiset.coe_card _).trans (List.length_map _)
  have hacc := h.inv.account
  rw [hcard, h.shape.card_writing] at hacc
  exact hacc

/-- What is recorded is what is resident. -/
theorem Sound.residentPages_eq (h : Sound M k) (hu : k.unbacked = false) :
    k.residentPages M = { x | x ∈ k.pool.alloced } := by
  have ho := h.own hu
  ext x
  constructor
  · rintro ⟨hswap, hmem⟩
    exact (ho.recorded x.1 x.2 hswap (h.managed _ hmem).1).resolve_right fun hout => hout hmem
  · intro hx
    obtain ⟨hswap, hne⟩ := ho.resident x hx
    have hpos : 0 < k.pool.residentCount k.pool.alloced (k.pool.pte x.1 x.2).addr :=
      Multiset.countP_pos.mpr ⟨x, hx, rfl⟩
    have hown : 0 < k.pool.own (k.pool.pte x.1 x.2).addr := by
      unfold Pool.own
      omega
    exact ⟨hswap, ho.managed _ hne hown⟩

theorem Sound.ncard_residentPages (h : Sound M k) (hu : k.unbacked = false) :
    (k.residentPages M).ncard = k.alloced.length := by
  have hset : k.residentPages M = ↑(Multiset.toFinset k.pool.alloced) := by
    rw [h.residentPages_eq hu]
    ext x
    simp
  rw [hset, Set.ncard_coe_finset, Multiset.toFinset_card_of_nodup (h.own hu).nodup]
  exact (Multiset.coe_card _).trans (List.length_map _)

theorem Sound.memoryUsage_eq (h : Sound M k) (hu : k.unbacked = false) :
    k.memoryUsage = (k.residentPages M).ncard + k.writingOut := by
  have hacc := h.limit_account
  rw [h.ncard_residentPages hu]
  unfold Kernel.memoryUsage
  omega

/-- A fault that is queued behind others because there is no frame leaves the page tables as they
are. -/
theorem NeedsFrame.pte_eq (h : NeedsFrame k pr k) (hpos : 0 < k.allocLimit)
    (hempty : k.freeFrames = []) (hne : k.requests ≠ []) (hrun : pager c pr k = .ok () k') :
    k'.pool.pte = k.pool.pte := by
  have halloc : Wp (pagerFrameAlloc pr.pid (pageAlign pr.addr)) k
      (fun f k₂ => f = 0 ∧ k₂.pool.pte = k.pool.pte ∧ k₂.requests = k.requests) fun _ _ => False :=
    wp_pagerFrameAlloc (fun hneg => by omega) (fun hzero => by omega)
      (fun _ _ k₂ hrec => ⟨rfl, by rw [hrec.pool]; rfl, by rw [hrec.rest]⟩)
      fun _ f rest hfree hf => by simp [Kernel.freeFrames, hfree, hf] at hempty
  obtain ⟨f, k₂, hok, rfl, hpte, hreq⟩ := halloc.returns
  rw [h.pager_eq (returns_of_run hok)] at hrun
  have hqueue : Wp (queueRequest c (.swapin pr)) k₂ (fun _ k' => k'.pool.pte = k₂.pool.pte)
      fun _ _ => True := by
    unfold queueRequest
    rw [wp_bind, wp_get, if_neg (by simp [hreq, hne]), wp_bind, wp_assert]
    exact ⟨fun _ => wp_modify.mpr rfl, fun _ => trivial⟩
  exact (hqueue.ok hrun).trans hpte

/-- While process 3 has a load under way, process 2 touches the four pages there are frames for. -/
def overdrawnRun : List Event := .processCreate 3 0 0 0 :: fifthPageRun

end Sos
