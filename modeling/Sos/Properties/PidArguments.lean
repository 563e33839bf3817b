import Sos.Crowd

/-!
# Pids that users pass

`SOS_PROCESS_DELETE` and `SOS_PROCESS_WAIT` take a pid from the message. `process_lookup` complains
about a pid outside the table and then reads the slot all the same, and what it has found is only
compared with NULL: a slot that `reserve_pid` has marked is followed as if it were a PCB.
-/

namespace Sos

open Hoare

variable {k : Kernel} {pid : Pid} {w : UInt32}

/-- The calls that take a pid. -/
inductive PidCall
  | delete
  | wait
deriving DecidableEq, Repr

def PidCall.event : PidCall → Pid → UInt32 → Event
  | .delete => .processDelete
  | .wait => .processWait

/-- What a call does about a process that does not exist: `processDelete` takes it for killed, and
`process_wait_for` gets `NIL_PID`. -/
def PidCall.noProcess : PidCall → Pid → UInt32 → PagerM Unit
  | .delete, pid, w => if pid.val = w.toNat then pure () else syscallReply pid 1
  | .wait, pid, _ =>
    modify fun k => k.updProcess pid ({ · with waitingOn := nilPid, state := .wait })

/-- The slot with the number `w`, if the table has it. -/
def Kernel.slotAt (k : Kernel) (w : UInt32) : Option Slot :=
  if h : w.toNat < 256 then some (k.sosProcs ⟨w.toNat, h⟩) else none

/-- The argument of a call is resolved: it is the pid of a process, or it is treated as that of
none. -/
def Resolved (call : PidCall) (k : Kernel) (pid : Pid) (w : UInt32) : Prop :=
  (∃ p, k.slotAt w = some (.pcb p)) ∨
    ∀ n, handle n (call.event pid w) k = call.noProcess pid w k

/-- The argument is in the table and not a pid that is only reserved. Waiting for `-1` looks up
nothing. -/
def SafeArgument (call : PidCall) (k : Kernel) (w : UInt32) : Prop :=
  call = .wait ∧ w.toNat = wordLimit - 1 ∨
    ∃ slot, k.slotAt w = some slot ∧ slot ≠ .placeholder

theorem slotAt_eq_some {slot : Slot} (h : k.slotAt w = some slot) :
    ∃ hw : w.toNat < 256, k.sosProcs ⟨w.toNat, hw⟩ = slot := by
  unfold Kernel.slotAt at h
  split at h
  · next hw => exact ⟨hw, Option.some.inj h⟩
  · simp at h

theorem noProcess_ok (call : PidCall) (h : (k.sosProcs pid).isUser = true) :
    ∃ k', call.noProcess pid w k = .ok () k' := by
  cases call with
  | wait => exact ⟨_, rfl⟩
  | delete =>
    unfold PidCall.noProcess
    dsimp only
    split
    · exact ⟨_, rfl⟩
    · obtain ⟨p, hp, -⟩ := Slot.exists_pcb_of_isUser h
      exact ⟨_, syscallReplyV_run hp⟩

/-- Any other argument makes the pager read outside the table or follow the mark as a PCB. -/
theorem handle_stops {call : PidCall} (h : ¬ SafeArgument call k w) (n : Nat) (pid : Pid) :
    Wp (handle n (call.event pid w)) k (fun _ _ => False) fun _ _ => True := by
  have hbad : ∀ hw : w.toNat < 256, k.sosProcs ⟨w.toNat, hw⟩ = .placeholder := by
    intro hw
    by_contra hne
    exact h (.inr ⟨_, dif_pos hw, hne⟩)
  cases call with
  | delete =>
    unfold PidCall.event handle handleWith processDeleteCall
    dsimp only
    split
    · next hw =>
      unfold processDelete
      rw [wp_bind, wp_bind, wp_get, hbad hw]
      exact wp_throw.mpr trivial
    · exact wp_throw.mpr trivial
  | wait =>
    unfold PidCall.event handle handleWith processWait
    dsimp only
    rw [if_neg fun hw => h (.inl ⟨rfl, hw⟩)]
    split
    · next hw =>
      rw [wp_bind, wp_get, hbad hw]
      exact wp_throw.mpr trivial
    · exact wp_throw.mpr trivial

theorem resolved_of_safe {call : PidCall} (h : SafeArgument call k w) : Resolved call k pid w := by
  rcases h with ⟨rfl, hw⟩ | ⟨slot, hslot, hne⟩
  · right
    intro n
    unfold PidCall.event handle handleWith processWait
    dsimp only
    rw [if_pos hw]
    rfl
  · cases slot with
    | placeholder => exact absurd rfl hne
    | pcb p => exact .inl ⟨p, hslot⟩
    | null =>
      right
      intro n
      obtain ⟨hw, hnull⟩ := slotAt_eq_some hslot
      cases call with
      | delete =>
        have hdelete : Returns (processDelete ⟨w.toNat, hw⟩) k 1 k := by
          unfold processDelete
          rw [Returns, wp_bind, wp_get, hnull]
          exact wp_pure.mpr ⟨rfl, rfl⟩
        unfold PidCall.event handle handleWith processDeleteCall
        dsimp only
        rw [dif_pos hw, hdelete.bind_eq]
        rfl
      | wait =>
        unfold PidCall.event handle handleWith processWait
        dsimp only
        rw [if_neg (by unfold wordLimit; omega), dif_pos hw]
        rw [(returns_of_run rfl : Returns get k k k).bind_eq, hnull]
        rfl

theorem safe_of_resolved {call : PidCall} (huser : (k.sosProcs pid).isUser = true)
    (h : Resolved call k pid w) : SafeArgument call k w := by
  rcases h with ⟨p, hp⟩ | hsame
  · exact .inr ⟨_, hp, by simp⟩
  · by_contra hunsafe
    obtain ⟨f, k₁, herror, -⟩ := (handle_stops hunsafe 0 pid).faults
    obtain ⟨k₂, hok⟩ := noProcess_ok (w := w) call huser
    rw [hsame 0, hok] at herror
    simp at herror

theorem Enabled.isUser {call : PidCall} (h : Enabled k (call.event pid w)) :
    (k.sosProcs pid).isUser = true := by
  cases call
  · exact h.2
  · exact h.2

/-- **Which arguments are resolved.** A pid that a user passes is the pid of a process or treated as
that of none exactly if it is in the table and not merely reserved, or is the `-1` of
`SOS_PROCESS_WAIT`. -/
theorem pid_resolved_iff (call : PidCall) (h : Enabled k (call.event pid w)) :
    Resolved call k pid w ↔ SafeArgument call k w :=
  ⟨safe_of_resolved h.isUser, resolved_of_safe⟩

/-- Process 2 waits for itself, the last pid that has been given away. -/
theorem pid_resolved_iff_self :
    ∃ k, Reachable (coldFrames 12) (fun _ _ => True) k ∧ Enabled k (.processWait 2 2) ∧
      Resolved .wait k 2 2 := by
  obtain ⟨k, hr, hobs⟩ := reachable_of_run 12 20 [[appRegion]] (fun _ _ => True) []
    (fun k => (k.sosProcs 2).isUser) (v := true) (by decide) (by decide +kernel)
  have hen : Enabled k (PidCall.wait.event 2 2) := ⟨by decide, hobs⟩
  refine ⟨k, hr, hen, (pid_resolved_iff .wait hen).mpr (.inr ⟨_, dif_pos (by decide), ?_⟩)⟩
  intro hmark
  have hslot : k.sosProcs 2 = .placeholder := hmark
  simp [hslot, Slot.isUser] at hobs

def Slot.isReserved : Slot → Bool
  | .placeholder => true
  | _ => false

theorem Slot.eq_placeholder {slot : Slot} (h : slot.isReserved = true) : slot = .placeholder := by
  cases slot with
  | placeholder => rfl
  | null | pcb => simp [Slot.isReserved] at h

/-- Process 2 creates a process, for which pid 3 is reserved. While it is being loaded, neither pid
3 nor a pid outside the table can be passed to either call. -/
theorem reserved_pid_unresolved :
    ∃ k, Reachable (coldFrames 12) (fun _ _ => True) k ∧
      ∀ call : PidCall, Enabled k (call.event 2 3) ∧
        ¬ Resolved call k 2 3 ∧ ¬ Resolved call k 2 256 := by
  obtain ⟨k, hr, hobs⟩ := reachable_of_run 12 20 [[appRegion]] (fun _ _ => True)
    [.processCreate 2 0 0 0] (fun k => ((k.sosProcs 2).isUser, (k.sosProcs 3).isReserved))
    (v := (true, true)) (by decide) (by decide +kernel)
  obtain ⟨huser, hreserved⟩ := Prod.mk.inj hobs
  have hmark := Slot.eq_placeholder hreserved
  refine ⟨k, hr, fun call => ⟨?_, fun h => ?_, fun h => ?_⟩⟩
  · cases call <;> exact ⟨by decide, huser⟩
  · rcases safe_of_resolved huser h with ⟨-, hw⟩ | ⟨slot, hslot, hne⟩
    · simp [wordLimit] at hw
    · obtain ⟨_, heq⟩ := slotAt_eq_some hslot
      exact hne (heq.symm.trans hmark)
  · rcases safe_of_resolved huser h with ⟨-, hw⟩ | ⟨slot, hslot, -⟩
    · simp [wordLimit] at hw
    · obtain ⟨hlt, -⟩ := slotAt_eq_some hslot
      simp at hlt

end Sos
