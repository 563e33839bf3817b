import Sos.Properties.Replies
import Sos.Queue.Handle

/-!
# Loads that fail

A program that cannot be loaded: its file does not open, is not executable, or is no ELF file. The
parent is told so, but the pid stays reserved, and a file that has been opened stays open.
-/

namespace Sos

open Hoare Relation

variable {M : Set Nat} {C : Kernel → Event → Prop} {k k' k₀ k₁ k₂ k₃ : Kernel}
variable {er : ElfloadRequest} {rest : List Request} {rval : Int} {buffer : Nat → UInt8}

/-! ## Reserved pids -/

theorem Booted.reserved (h : Booted M k) : Reserved k := by
  have hnil : k.loads = [] := by
    unfold Kernel.loads
    rw [h.idle.1]
    rfl
  exact ⟨fun er her => by rw [hnil] at her; simp at her, by rw [hnil]; exact .nil⟩

/-- Whatever the answers are, pids stay reserved for the loads in the queue. -/
theorem Reachable.reserved (h : Reachable M C k) : Reserved k ∧ Orderly Set.univ ∅ k := by
  induction h with
  | boot hb => exact ⟨hb.reserved, hb.orderly _⟩
  | step _ _ hstep ih =>
    obtain ⟨hen, n, hn⟩ := hstep
    have hw := handle_answers (G := False) n ih.2 hen (fun h => h.elim) (Set.subset_univ _)
      (.inr rfl)
    exact ⟨(hw.ok hn).2.1 ih.1, (hw.ok hn).2.2⟩

/-- The states that follow. -/
def Runs (C : Kernel → Event → Prop) : Kernel → Kernel → Prop :=
  ReflTransGen fun k k' => ∃ e, C k e ∧ Step k e k'

theorem Reachable.runs (h : Reachable M C k) (hr : Runs C k k') : Reachable M C k' := by
  induction hr with
  | refl => exact h
  | tail _ hstep ih =>
    obtain ⟨e, hc, hs⟩ := hstep
    exact .step ih hc hs

/-! ## Failing -/

/-- The answer ends the load at the head: the file does not open, is not executable, or is not an
ELF file. -/
def LoadFails (k : Kernel) (er : ElfloadRequest) (rval : Int) (buffer : Nat → UInt8) : Prop :=
  match er.stage with
  | .open => rval < 0
  | .checkExec => (k.received buffer).statFmode &&& fmExec = 0
  | .readHeader =>
    elf32CheckFile (k.received buffer).copyInOutBuffer (pagerBuffer k.virtualPager) = false
  | .close => False

/-- A failing answer does nothing but end the load: slots that are reserved stay so, and no file is
closed. -/
theorem LoadFails.tame (hf : LoadFails k er rval buffer) (hreq : k.requests = .elfload er :: rest)
    (ho : Orderly Set.univ ∅ k) (n : Nat) :
    Wp (handle n (.vfsReply rval buffer)) k (fun _ k' => Tame k k') fun _ _ => True := by
  unfold handle handleWith
  dsimp only
  rw [wp_bind]
  refine modify_eq.imp fun _ k₁ h₁ => ?_
  change k₁ = k.received buffer at h₁
  have hstill : Still k k₁ := h₁ ▸ still_messaging.buffers k _ _ k.memory
  have hfinish : Wp (finishElfload (calls n) (-1)) k₁ (fun _ k' => Tame k k') fun _ _ => True :=
    (finishElfload_tames (fun _ => calls_tame n) (ho.of_still hstill)).mono
      (fun _ _ h => hstill.tame.trans h.1) fun _ _ _ => trivial
  unfold vfsHandler
  rw [wp_bind, wp_requestsPeek]
  refine ⟨fun _ => trivial, fun r rest' hreq' => ?_⟩
  obtain ⟨rfl, -⟩ := List.cons.inj ((hstill.requests.trans hreq).symm.trans hreq')
  unfold LoadFails at hf
  rw [← h₁] at hf
  dsimp only
  unfold continueElfload
  cases hst : er.stage with
  | «open» =>
    rw [hst] at hf
    simpa only [if_pos hf] using hfinish
  | checkExec =>
    rw [hst] at hf
    dsimp only
    rw [wp_bind, wp_assert]
    refine ⟨fun _ => ?_, fun _ => trivial⟩
    rw [wp_bind, wp_get, wp_ite]
    exact ⟨fun _ => hfinish, fun h => absurd hf h⟩
  | readHeader =>
    rw [hst] at hf
    dsimp only
    rw [wp_bind, wp_get, wp_ite]
    refine ⟨fun _ => hfinish, fun h => absurd ?_ h⟩
    rw [h₁] at hf ⊢
    exact hf
  | close =>
    rw [hst] at hf
    exact hf.elim

/-- A `process_create` that fails: a pid is reserved and a load queued in the step from `k₀` to
`k₁`, other messages are handled, and in the step from `k₂` to `k₃` the load fails. -/
structure FailedCreate (M : Set Nat) (C : Kernel → Event → Prop) (er : ElfloadRequest)
    (k₀ k₁ k₂ k₃ : Kernel) : Prop where
  reach : Reachable M C k₀
  free : k₀.sosProcs er.child = .null
  create : ∃ fdout fderr fdin, C k₀ (.processCreate er.parent fdout fderr fdin) ∧
    Step k₀ (.processCreate er.parent fdout fderr fdin) k₁
  run : Runs C k₁ k₂
  head : k₂.requests.head? = some (.elfload er)
  fails : ∃ rval buffer, LoadFails k₂ er rval buffer ∧ Step k₂ (.vfsReply rval buffer) k₃

/-- The failed load has left no trace: its pid is as before, a file that was opened has been closed,
and the parent has got one reply. -/
structure NoTrace (er : ElfloadRequest) (k₀ k₂ k₃ : Kernel) : Prop where
  slot : k₃.sosProcs er.child = k₀.sosProcs er.child
  closed : er.stage ≠ .open → .close er.fd ∈ k₃.calls.drop k₂.calls.length
  reply : (k₃.replies.drop k₂.replies.length).filter (·.pid = er.parent) = [⟨er.parent, [-1]⟩]

theorem FailedCreate.tame (h : FailedCreate M C er k₀ k₁ k₂ k₃) :
    Reserved k₂ ∧ Tame k₂ k₃ ∧ er ∈ k₂.loads ∧ er.stage ≠ .close := by
  obtain ⟨fdout, fderr, fdin, hc, hcreate⟩ := h.create
  obtain ⟨hres, ho⟩ := ((Reachable.step h.reach hc hcreate).runs h.run).reserved
  obtain ⟨rval, buffer, hf, -, n, hn⟩ := h.fails
  obtain ⟨rest, hreq⟩ := List.head?_eq_some_iff.mp h.head
  refine ⟨hres, (hf.tame hreq ho n).ok hn, ?_, fun hst => ?_⟩
  · exact mem_loads.mpr (by rw [hreq]; exact List.mem_cons_self ..)
  · unfold LoadFails at hf
    rw [hst] at hf
    exact hf

/-- The pid is lost. -/
theorem FailedCreate.placeholder (h : FailedCreate M C er k₀ k₁ k₂ k₃) :
    k₃.sosProcs er.child = .placeholder := by
  obtain ⟨hres, ht, hmem, hst⟩ := h.tame
  exact ht.placeholder (hres.slot er hmem hst)

/-- **A failed `process_create` always leaves a trace.** -/
theorem failed_create_leaves_trace (h : FailedCreate M C er k₀ k₁ k₂ k₃) :
    ¬ NoTrace er k₀ k₂ k₃ := by
  intro hn
  have hslot := hn.slot
  rw [h.placeholder, h.free] at hslot
  simp at hslot

/-! ## Runs with a failing load -/

instance : Decidable (LoadFails k er rval buffer) := by
  unfold LoadFails
  split <;> infer_instance

theorem Runs.of_runEvents [∀ k e, Decidable (C k e)] {n : Nat} : ∀ {es : List Event} {k : Kernel},
    runEvents C n es k = some k' → Runs C k k'
  | [], _, h => by
    injection h with h
    exact h ▸ .refl
  | e :: es, k, h => by
    unfold runEvents at h
    split at h
    · next hen =>
      split at h
      · next k₁ hk₁ => exact .head ⟨e, hen.2, hen.1, n, hk₁⟩ (Runs.of_runEvents h)
      · simp at h
    · simp at h

/-- After `k₀` a load is asked for and fails. -/
def failsAfter (m : Nat) (er : ElfloadRequest) (es : List Event) (rval : Int)
    (buffer : Nat → UInt8) (k₀ : Kernel) : Option Kernel := do
  let k₁ ← runEvents (fun _ _ => True) m [.processCreate er.parent 0 0 0] k₀
  let k₂ ← runEvents (fun _ _ => True) m es k₁
  if k₂.requests.head? = some (.elfload er) ∧ LoadFails k₂ er rval buffer then
    runEvents (fun _ _ => True) m [.vfsReply rval buffer] k₂
  else none

theorem failedCreate_of_run (n m : Nat) (procs : List (List Region)) (es₀ es : List Event)
    (er : ElfloadRequest) (rval : Int) (buffer : Nat → UInt8)
    (hr : ∀ rs ∈ procs, ∀ r ∈ rs, r.elffile = none ∧ r.type = .other ∧ r.mapDirectly = false)
    (h : ((boot n procs).bind (runEvents (fun _ _ => True) m es₀)).map
      (fun k₀ => ((k₀.sosProcs er.child).tag, (failsAfter m er es rval buffer k₀).isSome)) =
        some (.free, true)) :
    ∃ k₀ k₁ k₂ k₃, FailedCreate (coldFrames n) (fun _ _ => True) er k₀ k₁ k₂ k₃ := by
  obtain ⟨k₀, hreach, hobs⟩ := reachable_of_run n m procs (fun _ _ => True) es₀ _ hr h
  obtain ⟨htag, hsome⟩ := Prod.mk.inj hobs
  obtain ⟨k₃, hk₃⟩ := Option.isSome_iff_exists.mp hsome
  obtain ⟨k₁, hk₁, hk₃⟩ := Option.bind_eq_some_iff.mp hk₃
  obtain ⟨k₂, hk₂, hk₃⟩ := Option.bind_eq_some_iff.mp hk₃
  split at hk₃
  · next hfail =>
    refine ⟨k₀, k₁, k₂, k₃, hreach, ?_, ⟨0, 0, 0, step_of_runEvents hk₁⟩,
      .of_runEvents hk₂, hfail.1, ⟨rval, buffer, hfail.2, (step_of_runEvents hk₃).2⟩⟩
    cases hs : k₀.sosProcs er.child <;> simp_all [Slot.tag]
  · simp at hk₃

/-- The load of a file without the execute permission. -/
theorem failed_create_leaves_trace_notExecutable :
    ∃ k₀ k₁ k₂ k₃, FailedCreate (coldFrames 12) (fun _ _ => True)
        { stage := .checkExec, path := [], fd := 3, parent := 2, child := 3 } k₀ k₁ k₂ k₃ ∧
      ¬ NoTrace { stage := .checkExec, path := [], fd := 3, parent := 2, child := 3 } k₀ k₂ k₃ := by
  obtain ⟨k₀, k₁, k₂, k₃, h⟩ := failedCreate_of_run 12 20 [[appRegion]]
    [.copyin 2 0x10000 4 false] [.vfsReply 3 fun _ => 0]
    { stage := .checkExec, path := [], fd := 3, parent := 2, child := 3 } 0 (fun _ => 0) (by decide)
    (by decide +kernel)
  exact ⟨k₀, k₁, k₂, k₃, h, failed_create_leaves_trace h⟩

/-- The load of a file that does not exist: pid 3 was free and is not any more. -/
theorem create_missing_file_loses_pid :
    ∃ k₀ k₁ k₂ k₃, FailedCreate (coldFrames 12) (fun _ _ => True)
        { path := [], parent := 2, child := 3 } k₀ k₁ k₂ k₃ ∧
      k₀.sosProcs 3 = .null ∧ k₃.sosProcs 3 = .placeholder ∧
      ¬ NoTrace { path := [], parent := 2, child := 3 } k₀ k₂ k₃ := by
  obtain ⟨k₀, k₁, k₂, k₃, h⟩ := failedCreate_of_run 12 20 [[appRegion]]
    [.copyin 2 0x10000 4 false] [] { path := [], parent := 2, child := 3 } vfsNovnode (fun _ => 0)
    (by decide) (by decide +kernel)
  have hp : k₃.sosProcs 3 = .placeholder := h.placeholder
  have hf : k₀.sosProcs 3 = .null := h.free
  refine ⟨k₀, k₁, k₂, k₃, h, hf, hp, fun hn => ?_⟩
  have hslot := hn.slot
  rw [h.placeholder, h.free] at hslot
  simp at hslot

end Sos
