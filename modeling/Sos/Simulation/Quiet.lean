import Sos.Effects
import Sos.Simulation.Lookup

/-!
# Functions that leave queue and resources alone

Messages, buffers, descriptors and the waking of waiting processes do not move frames or slots:
these functions are `Idle`. Deleting a process moves frames but does not touch the queue: `Quiet`.
-/

namespace Sos

open Hoare

variable {k k' k'' : Kernel} {pid : Pid} {M : Set Nat} {b : Bool}

/-- A PCB without what changes when the process waits, sleeps or opens files. -/
def Slot.core : Slot → Slot
  | .pcb p => .pcb
      { psType := p.psType, pagetable := p.pagetable, regions := p.regions, inc := p.inc }
  | s => s

/-- Neither the resources nor the queue have changed, and the processes are the same. -/
structure Idle (k k' : Kernel) : Prop where
  pool : k'.pool = k.pool
  requests : k'.requests = k.requests
  requestActive : k'.requestActive = k.requestActive
  core : ∀ pid, (k'.sosProcs pid).core = (k.sosProcs pid).core
  tidOffset : k'.tidOffset = k.tidOffset
  overrun : k'.overrun = k.overrun

namespace Idle

theorem refl (k : Kernel) : Idle k k := ⟨rfl, rfl, rfl, fun _ => rfl, rfl, rfl⟩

theorem trans (h : Idle k k') (h' : Idle k' k'') : Idle k k'' :=
  ⟨h'.pool.trans h.pool, h'.requests.trans h.requests, h'.requestActive.trans h.requestActive,
    fun pid => (h'.core pid).trans (h.core pid), h'.tidOffset.trans h.tidOffset,
    h'.overrun.trans h.overrun⟩

end Idle

/-- The queue has not changed, and the resources by steps of the pool. -/
structure Quiet (M : Set Nat) (b : Bool) (k k' : Kernel) : Prop where
  steps : Pool.Steps M b k.pool k'.pool
  requests : k'.requests = k.requests
  requestActive : k'.requestActive = k.requestActive

namespace Quiet

theorem refl (k : Kernel) : Quiet M b k k := ⟨.refl, rfl, rfl⟩

theorem trans (h : Quiet M b k k') (h' : Quiet M b k' k'') : Quiet M b k k'' :=
  ⟨h.steps.trans h'.steps, h'.requests.trans h.requests, h'.requestActive.trans h.requestActive⟩

theorem of_idle (h : Idle k k') : Quiet M b k k' :=
  ⟨by rw [h.pool], h.requests, h.requestActive⟩

theorem of_grow (h : Grow k k') : Quiet M b k k' :=
  ⟨h.steps M b, h.requests, h.requestActive⟩

end Quiet

/-! ## Idle functions -/

/-- A change of a PCB that leaves page table and regions alone. -/
theorem idle_updProcess {g : Process → Process} (hpt : ∀ p, (g p).pagetable = p.pagetable)
    (hr : ∀ p, (g p).regions = p.regions) (hi : ∀ p, (g p).psType = p.psType ∧ (g p).inc = p.inc) :
    Idle k (k.updProcess pid g) := by
  refine ⟨pool_updProcess hpt hr, ?_, ?_, fun pid' => ?_, ?_, ?_⟩
  case refine_3 =>
    refine updProcess_cases rfl fun p hs => ?_
    by_cases hpid : pid' = pid
    · subst hpid
      rw [setSlot_self, hs]
      simp [Slot.core, hpt, hr, hi]
    · rw [setSlot_of_ne hpid]
  all_goals
    unfold Kernel.updProcess
    split <;> rfl

theorem idle_unwatched : Messaging Idle fun f => f.watched = false where
  refl := .refl
  trans := .trans
  buffers := fun _ _ _ _ => ⟨rfl, rfl, rfl, fun _ => rfl, rfl, rfl⟩
  calls := fun _ _ _ => ⟨rfl, rfl, rfl, fun _ => rfl, rfl, rfl⟩
  reply := fun _ _ => ⟨rfl, rfl, rfl, fun _ => rfl, rfl, rfl⟩
  pcb := fun _ _ _ => idle_updProcess
  fault := fun _ h => h

theorem idle_messaging : Messaging Idle fun _ => True :=
  { idle_unwatched with fault := fun _ _ => trivial }

theorem idle_vfsCall (c : VfsCall) : Keeps Idle (fun _ => True) (vfsCall c) :=
  .modify fun _ => ⟨rfl, rfl, rfl, fun _ => rfl, rfl, rfl⟩

theorem idle_setSwapfileFd {ptr : SwapfilePtr} {fd : Int} : Idle k (k.setSwapfileFd ptr fd) := by
  cases ptr <;> exact ⟨rfl, rfl, rfl, fun _ => rfl, rfl, rfl⟩

theorem idle_assert (c : Bool) (site : Site) : Keeps Idle (fun _ => True) (assert c site) := by
  unfold assert
  exact .ite (.pure Idle.refl _) (.throw Idle.refl trivial)

theorem idle_swapfileClose (ptr : SwapfilePtr) :
    Keeps Idle (fun _ => True) (swapfileClose ptr) := by
  unfold swapfileClose
  refine .bind Idle.trans (keeps_derefSwapfile idle_messaging.toClosed ptr) fun sf => ?_
  refine .bind Idle.trans (idle_assert _ _) fun _ => ?_
  exact .bind Idle.trans (idle_vfsCall _) fun _ => .modify fun _ => idle_setSwapfileFd

theorem idle_swapfileSetFd (ptr : SwapfilePtr) (fd : Int) :
    Keeps Idle (fun _ => True) (swapfileSetFd ptr fd) := by
  unfold swapfileSetFd
  refine .bind Idle.trans (keeps_derefSwapfile idle_messaging.toClosed ptr) fun sf => ?_
  refine .bind Idle.trans (idle_assert _ _) fun _ => ?_
  exact .bind Idle.trans (idle_assert _ _) fun _ => .modify fun _ => idle_setSwapfileFd

theorem idle_readRest (pr : PagerRequest) : Keeps Idle (fun _ => True) (readRest pr) :=
  .bind Idle.trans (keeps_swapfileGetFd idle_messaging.toClosed _) fun _ => idle_vfsCall _

end Sos
