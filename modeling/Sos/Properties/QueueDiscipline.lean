import Sos.Queue.Handle
import Sos.Run

/-!
# The discipline of the request queue

`requestActive` says whether the request at the head of the queue has been started. `queueRequest`,
`dequeueRequest` and `startRequest` assert what they expect of it. `startPagerRequest` takes the
head off the queue, clears the flag and serves the request again from the start; if the request has
to be queued a second time while others are waiting, `queueRequest` finds the flag cleared.
-/

namespace Sos

open Hoare

variable {k : Kernel} {M : Set Nat}

/-- A request is active exactly when the queue is not empty. -/
def Kernel.Disciplined (k : Kernel) : Prop := k.requestActive = true ↔ k.requests ≠ []

/-- What `queueRequest` asserts is that it is entered in a disciplined state. -/
theorem queueRequest_asserts (c : Calls) (r : Request) (h : ¬ k.Disciplined) :
    ∃ f, queueRequest c r k = .error f k ∧ f.onQueue = true := by
  have hfault : Wp (queueRequest c r) k (fun _ _ => False)
      fun f k' => k' = k ∧ f.onQueue = true := by
    unfold queueRequest
    rw [wp_bind, wp_get, wp_ite]
    refine ⟨fun hempty => ?_, fun hne => ?_⟩
    · rw [wp_bind, wp_assert]
      refine ⟨fun hidle => (h ?_).elim, fun _ => ⟨rfl, rfl⟩⟩
      have hnil : k.requests = [] := by simpa using hempty
      simp [Kernel.Disciplined, hnil, show k.requestActive = false by simpa using hidle]
    · rw [wp_bind, wp_assert]
      refine ⟨fun hactive => (h ?_).elim, fun _ => ⟨rfl, rfl⟩⟩
      exact iff_of_true hactive (by simpa using hne)
  obtain ⟨f, _, hrun, rfl, hf⟩ := hfault.faults
  exact ⟨f, hrun, hf⟩

/-- **The queue is disciplined.** As long as no waiting request has been restarted that could not be
served while others waited behind it, a request is active exactly when the queue is not empty, and
no message makes an assertion on `requestActive` fail; so `queueRequest` is only entered in
disciplined states. -/
theorem queue_disciplined {C : Kernel → Event → Prop} (h : Reachable M C k) :
    (k.overrun = false → k.Disciplined) ∧
      (∀ e n f k', Enabled k e → handle n e k = .error f k' → k'.overrun = false →
        f.onQueue = false) ∧
      ∀ c r k₁, ¬ Kernel.Disciplined k₁ →
        ∃ f, queueRequest c r k₁ = .error f k₁ ∧ f.onQueue = true := by
  refine ⟨fun hno => ?_, fun e n f k' hen hrun hno => ?_, fun c r k₁ => queueRequest_asserts c r⟩
  · exact h.settled.resolve_left (by simp [hno])
  · obtain ⟨-, hqueue⟩ := (h.passes hen n).error hrun
    cases hf : f.onQueue with
    | false => rfl
    | true => exact absurd (hqueue hf) (by simp [hno])

/-- A load is under way, and another waits behind it. -/
theorem queue_disciplined_load :
    ∃ k, Reachable (coldFrames 12) (fun _ _ => True) k ∧ k.requests.length = 2 ∧
      k.requestActive = true := by
  obtain ⟨k, hr, hobs⟩ := reachable_of_run 12 20 [[appRegion], [appRegion]]
    (fun _ _ => True) [.processCreate 2 0 0 0, .processCreate 3 0 0 0]
    (fun k => (k.overrun, k.requests.length)) (v := (false, 2)) (by decide) (by decide +kernel)
  obtain ⟨hno, hlen⟩ := Prod.mk.inj hobs
  have hd := (queue_disciplined hr).1 hno
  exact ⟨k, hr, hlen, hd.mpr fun hnil => by simp [hnil] at hlen⟩

/-! ## Overruns -/

/-- The faults of processes 3 and 4 wait behind a load, and there is no frame left. -/
def overrunRun : List Event :=
  [.processCreate 2 0 0 0, .pagefault 4 0x10000 4, .pagefault 3 0x10000 4, .pagefault 3 0x11000 4,
    .pagefault 3 0x12000 4, .pagefault 3 0x13000 4, .pagefault 4 0x11000 4]

/-- When the load has failed, the fault of process 3 is restarted and queued again behind that of
process 4, with no request active. -/
theorem overrunRun_asserts :
    ∃ k e n f k', Reachable (coldFrames 12) SparesQueued k ∧ Enabled k e ∧ SparesQueued k e ∧
      handle n e k = .error f k' ∧ f = .assertion .queueRequestActive := by
  obtain ⟨k, hr, hobs⟩ := reachable_of_run 12 20 [[appRegion], [appRegion], [appRegion]]
    SparesQueued overrunRun
    (fun k => (k.requestActive, (outcome 20 (.vfsReply (-1) fun _ => 0) k).1))
    (v := (true, some (.assertion .queueRequestActive))) (by decide) (by decide +kernel)
  obtain ⟨hactive, hfault⟩ := Prod.mk.inj hobs
  obtain ⟨k', hrun⟩ := exists_error_of_outcome hfault
  exact ⟨k, .vfsReply (-1) fun _ => 0, 20, _, k', hr, hactive, trivial, hrun, rfl⟩

end Sos
