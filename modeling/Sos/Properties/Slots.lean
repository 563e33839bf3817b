import Sos.Properties.Frames
import Sos.Properties.Replies
import Sos.Crowd

/-!
# Swap slots

A page on the default swap file has a slot of its own, which is not on the chain of free slots, as
long as no swap-in from an executable completes while its file offset is the slot of another page of
the same process. Where it does, `finishSwapelf` releases the slot of that other page
(`clashRun_shares_slot`).
-/

namespace Sos

open FreeChain

variable {M : Set Nat} {k : Kernel}

/-- The entry of a page has `SWAP_MASK` set and `ELF_MASK` clear. -/
def Kernel.OnSwap (k : Kernel) (pid : Pid) (addr : Nat) : Prop :=
  (k.pte pid addr).swap = true ∧ (k.pte pid addr).elf = false

instance (k : Kernel) (pid : Pid) (addr : Nat) : Decidable (k.OnSwap pid addr) :=
  inferInstanceAs (Decidable (_ ∧ _))

theorem Kernel.OnSwap.pool {pid : Pid} {addr : Nat} (h : k.OnSwap pid addr) :
    k.pool.OnSwap pid (pageNo addr) := by
  refine ⟨?_, h.1, h.2⟩
  -- An entry with a mark is not that of a missing process.
  have hswap : ((k.sosProcs pid).pte (pageNo addr)).swap = true := h.1
  show (k.sosProcs pid).live = true
  cases hs : k.sosProcs pid with
  | pcb p => rfl
  | null | placeholder => rw [hs] at hswap; exact absurd hswap (by simp [Slot.pte, Slot.pcb?])

/-- The recorded slots are not on the chain. -/
theorem Pool.SlotInv.exists_chain {P : Pool} (hs : P.SlotInv) :
    ∃ l, Chain swapSize addressNone P.slots P.head l ∧ ∀ x ∈ P.swapped, x.2 / pageSize ∉ l := by
  obtain ⟨l, hl, -, hmem⟩ := hs.chain
  refine ⟨l, hl, fun x hx hin => ?_⟩
  obtain ⟨hoff, hlt⟩ := hs.wf x hx
  have hfree := (hmem (x.2 / pageSize) hlt).mp hin x.1
  rw [Pool.slot_div_mul hoff] at hfree
  exact hfree hx

/-- **Swap slots are not shared.** In every run without a clash of names, two pages on the swap file
hold different slots, and neither is on the free chain. -/
theorem swap_slots_exclusive (hr : Reachable M ClashFree k) :
    (∀ p a q b, k.OnSwap p a → k.OnSwap q b → (p, pageNo a) ≠ (q, pageNo b) →
      (k.pte p a).addr ≠ (k.pte q b).addr) ∧
    ∃ l, Chain swapSize addressNone k.defaultSwapfile.slots k.defaultSwapfile.head l ∧
      ∀ p a, k.OnSwap p a → (k.pte p a).addr / pageSize ∉ l := by
  have hheld := hr.held fun _ _ => id
  obtain ⟨l, hl, hdisj⟩ := hr.sound.slots.exists_chain
  refine ⟨fun p a q b ha hb hne => ?_, l, hl, fun p a ha => ?_⟩
  · exact hheld.distinct p (pageNo a) q (pageNo b) ha.pool hb.pool hne
  · exact hdisj _ (hheld.held p (pageNo a) ha.pool)

/-! ## Runs that swap -/

theorem Reachable.mono {C C' : Kernel → Event → Prop} (h : Reachable M C k)
    (hC : ∀ k e, C k e → C' k e) : Reachable M C' k := by
  induction h with
  | boot hb => exact .boot hb
  | step _ hc hstep ih => exact .step ih (hC _ _ hc) hstep

/-- The message answers the last call of a swap-in. -/
def Kernel.completesSwapin (k : Kernel) (e : Event) : Bool :=
  match e.sender, k.requests with
  | none, .swapin pr :: _ => pr.stage = some .swapinClose
  | _, _ => false

theorem ClashFree.of_not_completesSwapin {e : Event} (h : k.completesSwapin e = false) :
    ClashFree k e := by
  intro hsend pr rest hreq hstage
  unfold Kernel.completesSwapin at h
  simp [hsend, hreq, hstage] at h

/-- The program of `programRun` is running as process 3 and its parent is gone; it has a heap and
has used one page of it. -/
def heapRun : List Event :=
  programRun.dropLast ++ [.exception 2, .moremem 3 0x800000, .memloc 3 0x400000, .memloc 3 0x800000]

/-- The answers to the calls of a swap-out. -/
def swapOutReplies : List Event :=
  .vfsReply 4 (fun _ => 0) :: List.replicate 6 (.vfsReply 0 fun _ => 0)

/-- The answers to the calls of a swap-in of a whole page. -/
def swapInReplies : List Event :=
  [.vfsReply 5 fun _ => 0, .vfsReply 0 fun _ => 0] ++
    List.replicate 3 (.vfsReply 1100 fun _ => 0) ++
    [.vfsReply 796 fun _ => 0, .vfsReply 0 fun _ => 0]

/-- Two pages of the heap are on the swap file. -/
theorem swap_slots_exclusive_twoPages :
    ∃ k, Reachable (coldFrames 1050) ClashFree k ∧ k.OnSwap 3 0x400000 ∧ k.OnSwap 3 0x401000 ∧
      (k.pte 3 0x400000).addr ≠ (k.pte 3 0x401000).addr ∧
      ∃ l, Chain swapSize addressNone k.defaultSwapfile.slots k.defaultSwapfile.head l ∧
        (k.pte 3 0x400000).addr / pageSize ∉ l ∧ (k.pte 3 0x401000).addr / pageSize ∉ l := by
  obtain ⟨k, hr, hobs⟩ := reachable_of_crowdedRun 1050 19 [[appRegion]]
    (fun k e => k.completesSwapin e = false) 3 0x800000 heapRun
    (swapOutReplies ++ .pagefault 3 0x801000 4 :: swapOutReplies)
    (fun k => (decide (k.OnSwap 3 0x400000), decide (k.OnSwap 3 0x401000))) (v := (true, true))
    (by decide) (fun _ _ => rfl) (by decide +kernel)
  have hclash := hr.mono fun _ _ h => ClashFree.of_not_completesSwapin h
  obtain ⟨hfirst, hsecond⟩ := Prod.mk.inj hobs |>.imp of_decide_eq_true of_decide_eq_true
  obtain ⟨hne, l, hl, hfree⟩ := swap_slots_exclusive hclash
  exact ⟨k, hclash, hfirst, hsecond, hne _ _ _ _ hfirst hsecond (by decide), l, hl,
    hfree _ _ hfirst, hfree _ _ hsecond⟩

/-- The code of the program is at offset 0 of its file. Reading its first page in releases slot 0,
which holds the first page of the heap; the second page of the heap is written there. -/
theorem clashRun_shares_slot :
    ∃ k, Reachable (coldFrames 1050) (fun _ _ => True) k ∧ k.defaultSwapfile.usage < swapSize ∧
      k.pte 3 0x400000 = { swap := true } ∧ k.pte 3 0x401000 = { swap := true } := by
  obtain ⟨k, hr, hobs⟩ := reachable_of_crowdedRun 1050 19 [[appRegion]] (fun _ _ => True) 3 0x800000
    heapRun (swapOutReplies ++ .pagefault 3 0x20000 4 :: swapInReplies ++ swapOutReplies)
    (fun k => (decide (k.defaultSwapfile.usage < swapSize), k.pte 3 0x400000, k.pte 3 0x401000))
    (v := (true, { swap := true }, { swap := true })) (by decide) (fun _ _ => trivial)
    (by decide +kernel)
  obtain ⟨husage, hfirst, hsecond⟩ := Prod.mk.inj hobs |>.imp id Prod.mk.inj
  exact ⟨k, hr, of_decide_eq_true husage, hfirst, hsecond⟩

end Sos
