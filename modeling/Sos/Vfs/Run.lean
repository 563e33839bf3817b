import Sos.Vfs.Server

/-!
# Running the file layer

`runEvents` handles a list of messages, and `booted` is a state after start-up with a few processes.
What is computed from there is reachable (`reachable_of_run`), so a run that exhibits a behaviour
can be found by evaluation.
-/

namespace Sos.Vfs

variable {s t : Vfs} {C : Vfs → Event → Prop} [∀ s e, Decidable (C s e)] {es : List Event}

/-- Handle messages, as long as they can come, satisfy `C` and are handled without a fault. -/
def runEvents (C : Vfs → Event → Prop) [∀ s e, Decidable (C s e)] : List Event → Vfs → Option Vfs
  | [], s => some s
  | e :: es, s =>
    if Enabled s e ∧ C s e then
      match handle e s with
      | .ok _ t => runEvents C es t
      | .error _ _ => none
    else none

theorem Reachable.runEvents (h : Reachable C s) (hr : Vfs.runEvents C es s = some t) :
    Reachable C t := by
  induction es generalizing s with
  | nil => exact Option.some.inj hr ▸ h
  | cons e es ih =>
    rw [Vfs.runEvents] at hr
    split at hr
    · next he =>
      split at hr
      · next u hu => exact ih (h.step he.2 ⟨he.1, hu⟩) hr
      · simp at hr
    · simp at hr

/-- The root server and `n` processes behind it, all running, with the vnode of the console
at 100. -/
def booted (n : Nat) : Vfs :=
  vfsInit (fun pid => if pid.val ≤ n then
    .pcb { pagetable := ⟨0, fun _ => none⟩, inc := pid.val, state := .alive } else .null) 256 100

theorem started_booted (n : Nat) : Started (booted n) := by
  refine ⟨_, _, _, rfl, fun pid p hp => ?_⟩
  split at hp
  · obtain rfl := Slot.pcb.inj hp
    exact ⟨⟨fun _ => rfl, fun _ => rfl⟩, nofun, pid.isLt⟩
  · simp at hp

/-- What a run shows of the state it ends in. -/
theorem reachable_of_run (C : Vfs → Event → Prop) [∀ s e, Decidable (C s e)] (n : Nat)
    (es : List Event) (P : Vfs → Prop) [DecidablePred P]
    (h : (Vfs.runEvents C es (booted n)).any fun s => P s) : ∃ s, Reachable C s ∧ P s := by
  cases hs : Vfs.runEvents C es (booted n) with
  | none => simp [hs] at h
  | some s =>
    rw [hs] at h
    exact ⟨s, Reachable.runEvents (.start (started_booted n)) hs, of_decide_eq_true h⟩

/-- The step can be made and shows the property. -/
def stepShows (e : Event) (P : Vfs → Vfs → Prop) [∀ s t, Decidable (P s t)] (s : Vfs) : Bool :=
  decide (Enabled s e) &&
    match handle e s with
    | .ok _ t => decide (P s t)
    | .error _ _ => false

theorem exists_step_of_shows {e : Event} {P : Vfs → Vfs → Prop} [∀ s t, Decidable (P s t)]
    (h : stepShows e P s = true) : ∃ t, Step s e t ∧ P s t := by
  unfold stepShows at h
  rw [Bool.and_eq_true] at h
  obtain ⟨he, hs⟩ := h
  split at hs
  · next t ht => exact ⟨t, ⟨of_decide_eq_true he, ht⟩, of_decide_eq_true hs⟩
  · simp at hs

/-- What a step after a run shows of the states before and after it. -/
theorem step_of_run (C : Vfs → Event → Prop) [∀ s e, Decidable (C s e)] (n : Nat)
    (es : List Event) (e : Event) (P : Vfs → Vfs → Prop) [∀ s t, Decidable (P s t)]
    (h : (Vfs.runEvents C es (booted n)).any (stepShows e P)) :
    ∃ s t, Reachable C s ∧ Step s e t ∧ P s t := by
  obtain ⟨s, hr, hs⟩ := reachable_of_run C n es (fun s => stepShows e P s = true) (by simpa using h)
  obtain ⟨t, hst, hP⟩ := exists_step_of_shows hs
  exact ⟨s, t, hr, hst, hP⟩

end Sos.Vfs
