import Sos.Transfer
import Sos.Crowd

/-!
# Swapping out and in again

A page that has been written to the swap file comes back byte for byte, whatever pieces the reads
come in. Both chains of calls end without a failed assertion, and the swap-out writes nowhere but in
its slot.
-/

namespace Sos

open Hoare AllRuns

variable {k k' : Kernel} {pr : PagerRequest} {rest : List Request} {slot : Nat}

/-- What `startSwapout` has prepared when it calls `swapfile_open`: the request for the page in the
frame `pr.addr` is at the head of the queue, and the swap file is closed. -/
structure OutReady (pr : PagerRequest) (rest : List Request) (slot : Nat) (k : Kernel) : Prop where
  head : k.requests = .swapout pr :: rest
  stage : pr.stage = some .swapoutOpen
  size : pr.size = pageSize
  offset : pr.offset = -1
  sf : pr.sf = .default
  diskAddr : pr.diskAddr = slot
  shut : k.defaultSwapfile.fd = vfsNilFile

/-- What `startSwapin` has prepared when it calls `swapfile_open`: the request is at the head of the
queue, and its page is in the slot. -/
structure InReady (pr : PagerRequest) (rest : List Request) (slot : Nat) (k : Kernel) : Prop where
  head : k.requests = .swapin pr :: rest
  stage : pr.stage = some .swapinOpen
  size : pr.size = pageSize
  sf : pr.sf = .default
  table : k.HasTable pr.pid (pageNo pr.addr)
  entry : (k.pool.pte pr.pid (pageNo pr.addr)).addr = slot

/-- The request at the head is at the stage from which `finishSwapout` is called. -/
def Kernel.AtFinishSwapout (k : Kernel) : Prop :=
  ∃ pr rest, k.requests = .swapout pr :: rest ∧ pr.stage = some .swapoutClose

/-- A later swap-in of the slot brings the bytes `g` into the pinned frame. It finds the descriptor
as the swap-out has left it in `s`, and the slot has not been written in between. -/
def Restores (slot : Nat) (g : Nat → UInt8) (s : Kernel × Disk) : Prop :=
  ∀ k₂ d₂ pr₂ rest₂, InReady pr₂ rest₂ slot k₂ →
    k₂.defaultSwapfile.fd = s.1.defaultSwapfile.fd →
    (∀ i < pageSize, d₂.file (slot + i) = s.2.file (slot + i)) →
    ∃ k₃, swapfileOpen .default fmRead k₂ = .ok () k₃ ∧
      AllUntil transfer (WritesWithin slot)
        (fun t => t.1.AtSwapinFinish ∧ ∀ i < pageSize, t.1.memory (t.1.pinnedFrame + i) = g i)
        (k₃, d₂)

theorem OutReady.opens (h : OutReady pr rest slot k) :
    ∃ k', swapfileOpen .default fmWrite k = .ok () k' ∧ OutBegun pr rest k' ∧
      k'.memory = k.memory := by
  have hshut : k.fd? .default = some vfsNilFile := congrArg some h.shut
  obtain ⟨sf, -, hopen⟩ := swapfileOpen_returns hshut fmWrite
  refine ⟨_, hopen.run, ⟨h.head, h.stage, h.size, ?_, ?_, ?_⟩, rfl⟩
  · rw [h.offset]
    decide
  · rw [h.sf]
    exact hshut
  · exact ⟨_, _, _, _, pending_of_calls rfl⟩

theorem InReady.opens (h : InReady pr rest slot k) (hshut : k.defaultSwapfile.fd = vfsNilFile) :
    ∃ k', swapfileOpen .default fmRead k = .ok () k' ∧ InBegun pr rest slot k' := by
  have hshut' : k.fd? .default = some vfsNilFile := congrArg some hshut
  obtain ⟨sf, -, hopen⟩ := swapfileOpen_returns hshut' fmRead
  refine ⟨_, hopen.run, h.head, h.stage, h.size, ?_, h.table, h.entry, ?_⟩
  · rw [h.sf]
    exact hshut'
  · exact ⟨_, _, _, _, pending_of_calls rfl⟩

/-- After the swap-out the slot holds the page, and the file is closed. -/
theorem OutFinished.restores {d : Disk} {s : Kernel × Disk} (h : OutFinished pr rest k d s)
    (hsf : pr.sf = .default) (hslot : pr.diskAddr = slot) :
    Restores slot (k.framed pr.addr) s := by
  intro k₂ d₂ pr₂ rest₂ hready hfd hfile
  have hshut : s.1.defaultSwapfile.fd = vfsNilFile := by
    have := h.shut
    rw [hsf] at this
    exact Option.some.inj this
  obtain ⟨k₃, hok, hbegun⟩ := hready.opens (hfd.trans hshut)
  refine ⟨k₃, hok, (reads_page hbegun d₂).mono (fun _ hw => hw.1) fun t ht => ⟨?_, fun i hi => ?_⟩⟩
  · exact ⟨_, _, ht.head, rfl⟩
  · have hpin : t.1.pinnedFrame = k₃.pinnedFrame := by rw [ht.moved]
    rw [ht.memory, hpin, blit_apply hi, Disk.bytes, hfile i hi, h.file, Disk.holding, hslot,
      blit_apply hi]

/-- **The round trip.** However the root server answers, the swap-out ends at `finishSwapout` with
all its writes inside the slot, and from then on a swap-in of the slot ends with the original page
in the pinned frame. -/
theorem swap_round_trip (h : OutReady pr rest slot k) (d : Disk) :
    ∃ k', swapfileOpen .default fmWrite k = .ok () k' ∧
      AllUntil transfer (WritesWithin slot)
        (fun s => s.1.AtFinishSwapout ∧ Restores slot (fun i => k.memory (pr.addr + i)) s)
        (k', d) := by
  obtain ⟨k', hok, hbegun, hmem⟩ := h.opens
  refine ⟨k', hok, ?_⟩
  rw [← h.diskAddr, ← hmem]
  refine (writes_page hbegun d).mono (fun _ hw => hw) fun s hs => ⟨?_, ?_⟩
  · exact ⟨_, _, hs.head, rfl⟩
  · exact hs.restores h.sf rfl

/-- The frame `0x3000` is to go to slot 5. -/
def slotFiveOut : PagerRequest :=
  { pid := 2, addr := 0x3000, rights := 4, sf := .default, callback := .null, inc := 1
    stage := some .swapoutOpen, diskAddr := 0x5000, size := 4096 }

/-- Page `0x10000` is to come from slot 5. -/
def slotFiveIn : PagerRequest :=
  { pid := 2, addr := 0x10000, rights := 4, sf := .default, callback := .pagerContinue, inc := 1
    stage := some .swapinOpen, size := 4096 }

/-- Its process. -/
def slotFiveProcess : Process where
  state := .alive
  pagetable :=
    { frame := 0x2000, pages2 := fun _ => some ⟨0x4000, fun _ => { addr := 0x5000, swap := true }⟩ }
  regions := [appRegion]
  inc := 1

theorem swap_round_trip_slotFive :
    ∃ k k₂, OutReady slotFiveOut [] 0x5000 k ∧ InReady slotFiveIn [] 0x5000 k₂ ∧
      ∃ k', swapfileOpen .default fmWrite k = .ok () k' ∧
        AllUntil transfer (WritesWithin 0x5000)
          (fun s => s.1.AtFinishSwapout ∧ Restores 0x5000 (fun i => k.memory (0x3000 + i)) s)
          (k', ⟨fun _ => 0, 0⟩) := by
  have hout : OutReady slotFiveOut [] 0x5000
      { coldStart 4 with requests := [.swapout slotFiveOut] } := ⟨rfl, rfl, rfl, rfl, rfl, rfl, rfl⟩
  let k₂ := { coldStart 4 with requests := [.swapin slotFiveIn] }.setSlot 2 (.pcb slotFiveProcess)
  have hp : k₂.sosProcs 2 = .pcb slotFiveProcess := setSlot_self
  have hin : InReady slotFiveIn [] 0x5000 k₂ := by
    refine ⟨rfl, rfl, rfl, rfl, ⟨slotFiveProcess, _, hp, rfl⟩, ?_⟩
    show ((k₂.sosProcs 2).pte (pageNo 0x10000)).addr = _
    rw [hp]
    rfl
  exact ⟨_, k₂, hout, hin, swap_round_trip hout ⟨fun _ => 0, 0⟩⟩

end Sos
