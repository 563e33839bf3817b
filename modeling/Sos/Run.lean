import Sos.Handler

/-!
# Running the model

The model is executable: `boot` starts a machine of a given number of frames with given processes,
`runEvents` handles a list of messages. What they compute is reachable
(`booted_of_boot`, `Reachable.runEvents`), so a run that exhibits a behaviour can be found by
evaluation.
-/

namespace Sos

open Hoare

variable {k k' : Kernel} {n : Nat} {es : List Event}

/-! ## A machine at start-up -/

/-- A machine with the frames 1 to `n + 1`, the first of which holds the page table of the root
server. -/
def coldStart (n : Nat) : Kernel where
  free := (List.range n).map fun i => (i + 2) * pageSize
  totalInUse := 1
  exhausted := false
  unbacked := false
  sosProcs := fun pid =>
    if pid = rootserverno then
      .pcb
        { state := .alive, pagetable := { frame := pageSize, pages2 := fun _ => none }, inc := 0 }
    else .null
  nextPid := 1
  tidOffset := 1
  allocLimit := 0
  alloced := []
  swapped := []
  defaultSwapfile := .init []
  elffiles := fun _ => none
  requests := []
  requestActive := false
  pinnedFrame := 0
  virtualPager := rootserverno
  copyInOutData := fun _ => 0
  copyInOutBuffer := fun _ => 0
  memory := fun _ => 0
  mmu := fun _ _ => none
  vnodePath := fun _ => []
  replies := []
  calls := []
  overrun := false
  incs := 1

/-- Its frames. -/
def coldFrames (n : Nat) : Set Nat := { f | ∃ i ≤ n, f = (i + 1) * pageSize }

theorem coldStart_pcb {pid : Pid} {p : Process} (h : (coldStart n).sosProcs pid = .pcb p) :
    pid = rootserverno ∧
      p = { state := .alive, inc := 0
            pagetable := { frame := pageSize, pages2 := fun _ => none } } := by
  unfold coldStart at h
  dsimp only at h
  split at h
  · next hpid =>
    injection h with h
    exact ⟨hpid, h.symm⟩
  · simp at h

theorem coldStart_started (n : Nat) : Started (coldFrames n) (coldStart n) where
  managed := by
    rintro f ⟨i, -, rfl⟩
    refine ⟨by unfold pageSize; omega, Nat.mul_mod_left _ _⟩
  free_managed := fun f hf => by
    obtain ⟨i, hi, rfl⟩ := List.mem_map.mp hf
    exact ⟨i + 1, List.mem_range.mp hi, rfl⟩
  free_nodup := by
    refine List.Nodup.map (fun i j hij => ?_) List.nodup_range
    simp only [pageSize] at hij
    omega
  threads := fun pid p hp => by
    obtain ⟨-, rfl⟩ := coldStart_pcb hp
    refine ⟨rfl, ⟨0, by omega, by simp⟩, fun hf => ?_, fun _ => rfl⟩
    obtain ⟨i, -, hi⟩ := List.mem_map.mp hf
    simp only [pageSize] at hi
    omega
  threads_inj := fun pid p pid' p' hp hp' _ => by
    rw [(coldStart_pcb hp).1, (coldStart_pcb hp').1]
  rootserver := ⟨_, rfl⟩
  rootthreads := fun pid p hne hp => absurd (coldStart_pcb hp).1 hne
  nobody := fun pid p hp => by
    obtain ⟨-, rfl⟩ := coldStart_pcb hp
    rfl
  reserved := fun pid => by
    unfold coldStart
    dsimp only
    split <;> simp
  tidOffset := ⟨show (0 : Pid) < 1 by decide, le_refl _⟩
  elffiles := fun _ => rfl
  requestActive := rfl
  pinnedFrame := rfl
  mmu := fun _ _ => rfl
  overrun := rfl
  unbacked := rfl

/-! ## Runs -/

/-- Start a process for each list of regions. -/
def bootFrom : List (List Region) → Kernel → Option Kernel
  | [], k => some k
  | regions :: procs, k =>
    match bootProcess regions k with
    | .ok _ k' => bootFrom procs k'
    | .error _ _ => none

/-- Start the pager, then the processes. -/
def boot (n : Nat) (procs : List (List Region)) : Option Kernel :=
  match pagerInit (coldStart n) with
  | .ok _ k => bootFrom procs k
  | .error _ _ => none

/-- Handle messages one after the other, as long as they can arrive, satisfy `C` and are handled
without a fault. -/
def runEvents (C : Kernel → Event → Prop) [∀ k e, Decidable (C k e)] (n : Nat) :
    List Event → Kernel → Option Kernel
  | [], k => some k
  | e :: es, k =>
    if Enabled k e ∧ C k e then
      match handle n e k with
      | .ok _ k' => runEvents C n es k'
      | .error _ _ => none
    else none

theorem booted_of_bootFrom {M : Set Nat} : ∀ {procs : List (List Region)} {k : Kernel},
    Booted M k → (∀ rs ∈ procs, ∀ r ∈ rs, BootRegion M r) → bootFrom procs k = some k' →
    Booted M k'
  | [], k, hb, _, h => by
    injection h with h
    exact h ▸ hb
  | rs :: procs, k, hb, hr, h => by
    unfold bootFrom at h
    split at h
    · next k₁ hk₁ =>
      refine booted_of_bootFrom (.process hb (hr rs (List.mem_cons_self ..)) hk₁) ?_ h
      exact fun rs' hrs' => hr rs' (List.mem_cons_of_mem _ hrs')
    · simp at h

theorem booted_of_boot {procs : List (List Region)}
    (hr : ∀ rs ∈ procs, ∀ r ∈ rs, BootRegion (coldFrames n) r) (h : boot n procs = some k) :
    Booted (coldFrames n) k := by
  unfold boot at h
  split at h
  · next k₁ hk₁ => exact booted_of_bootFrom (.init (coldStart_started n) hk₁) hr h
  · simp at h

theorem Reachable.runEvents {M : Set Nat} {C : Kernel → Event → Prop} [∀ k e, Decidable (C k e)] :
    ∀ {es : List Event} {k : Kernel}, Reachable M C k → Sos.runEvents C n es k = some k' →
      Reachable M C k'
  | [], k, hr, h => by
    injection h with h
    exact h ▸ hr
  | e :: es, k, hr, h => by
    unfold Sos.runEvents at h
    split at h
    · next hen =>
      split at h
      · next k₁ hk₁ => exact Reachable.runEvents (.step hr hen.2 ⟨hen.1, n, hk₁⟩) h
      · simp at h
    · simp at h

theorem step_of_runEvents {C : Kernel → Event → Prop} [∀ k e, Decidable (C k e)] {e : Event}
    (h : runEvents C n [e] k = some k') : C k e ∧ Step k e k' := by
  unfold runEvents at h
  split at h
  · next hen =>
    split at h
    · next k₁ hk₁ =>
      injection h with h
      exact ⟨hen.2, hen.1, n, h ▸ hk₁⟩
    · simp at h
  · simp at h

/-- What is observed after a run is observed in a reachable state. -/
theorem reachable_of_run {α : Type} (n m : Nat) (procs : List (List Region))
    (C : Kernel → Event → Prop) [∀ k e, Decidable (C k e)] (es : List Event) (obs : Kernel → α)
    {v : α}
    (hr : ∀ rs ∈ procs, ∀ r ∈ rs, r.elffile = none ∧ r.type = .other ∧ r.mapDirectly = false)
    (h : ((boot n procs).bind (runEvents C m es)).map obs = some v) :
    ∃ k, Reachable (coldFrames n) C k ∧ obs k = v := by
  obtain ⟨k, hk, hobs⟩ := Option.map_eq_some_iff.mp h
  obtain ⟨k₀, hboot, hrun⟩ := Option.bind_eq_some_iff.mp hk
  refine ⟨k, Reachable.runEvents (.boot (booted_of_boot (fun rs hrs r hm => ?_) hboot)) hrun, hobs⟩
  obtain ⟨helf, hty, hdir⟩ := hr rs hrs r hm
  exact ⟨helf, hty, by simp [hdir]⟩

/-- Two processes touch three pages between them. -/
def threePagesRun : List Event :=
  [.pagefault 2 0x10000 4, .pagefault 3 0x10000 4, .pagefault 2 0x11000 4]

/-- The fault and the last call of handling a message. -/
def outcome (n : Nat) (e : Event) (k : Kernel) : Option Fault × Option VfsCall :=
  match handle n e k with
  | .ok _ k' => (none, k'.calls.getLast?)
  | .error f k' => (some f, k'.calls.getLast?)

theorem exists_error_of_outcome {n : Nat} {e : Event} {k : Kernel} {f : Fault}
    (h : (outcome n e k).1 = some f) : ∃ k', handle n e k = .error f k' := by
  unfold outcome at h
  split at h
  · simp at h
  · next g k' hrun => exact ⟨k', Option.some.inj h ▸ hrun⟩

/-- What is observed of the last step of a run is observed of a step from a reachable state. -/
theorem step_of_run (n m : Nat) (procs : List (List Region)) (C : Kernel → Event → Prop)
    [∀ k e, Decidable (C k e)] (es : List Event) (e : Event) (P : Kernel → Kernel → Prop)
    [∀ k k', Decidable (P k k')]
    (hr : ∀ rs ∈ procs, ∀ r ∈ rs, r.elffile = none ∧ r.type = .other ∧ r.mapDirectly = false)
    (h : ((boot n procs).bind (runEvents C m es)).map
      (fun k => (runEvents C m [e] k).any fun k' => P k k') = some true) :
    ∃ k k', Reachable (coldFrames n) C k ∧ C k e ∧ Step k e k' ∧ P k k' := by
  obtain ⟨k, hreach, hobs⟩ := reachable_of_run n m procs C es _ hr h
  obtain ⟨k', hk', hP⟩ := (Option.any_eq_true _ _).mp hobs
  obtain ⟨hC, hstep⟩ := step_of_runEvents hk'
  exact ⟨k, k', hreach, hC, hstep, of_decide_eq_true hP⟩

/-- Sixteen pages of ordinary memory. -/
def appRegion : Region := { type := .other, base := 0x10000, size := 0x10000, rights := 7 }

end Sos
