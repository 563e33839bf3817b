import Sos.Simulation.Finish

/-!
# New processes

A process is built outside the process table: its page tables and the swap files of its segments
take frames off the free list, and all of this becomes the process's own when its PCB is entered.
In the pool this is one step, `Pool.Step.spawn`. `Building` accounts for the frames until then.
-/

namespace Sos

open Hoare

variable {k k' k'' : Kernel} {E : Fault → Kernel → Prop} {pid : Pid} {M : Set Nat} {b : Bool}
variable {p : Process} {rest : List Request}

/-- Since `k` the frames of `p` have been taken off the free list, and nothing else has happened. -/
structure Building (M : Set Nat) (k : Kernel) (p : Process) (k' : Kernel) : Prop where
  frames : (k'.freeFrames : Multiset Nat) + (p.pagetable.frames : Multiset Nat) +
    (p.regions.filterMap Region.elffile : List Nat) = (k.freeFrames : Multiset Nat)
  /-- Every page is either not there or on the executable. -/
  entries : ∀ n, (p.pagetable.entry n).swap = false ∧ (p.pagetable.entry n).addr = 0 ∨
    (p.pagetable.entry n).swap ∧ (p.pagetable.entry n).elf
  /-- Directly mapped are only addresses without a managed frame. -/
  direct : ∀ r ∈ p.regions, r.mapDirectly → r.type ≠ .heap ∧ ∀ a, findRegion a r → pageAlign a ∉ M
  rest : k' = { k with
    free := k'.free, totalInUse := k'.totalInUse, elffiles := k'.elffiles, incs := k'.incs
    nextPid := k'.nextPid }

/-! ## Building -/

theorem freeFrames_frameTaken {f : Nat} {rest : List Nat} (h : k.free = f :: rest) (hf : f ≠ 0) :
    (k.freeFrames : Multiset Nat) = f ::ₘ ((k.frameTaken rest).freeFrames : Multiset Nat) := by
  unfold Kernel.freeFrames Kernel.frameTaken
  simp [h, hf]

/-- `frame_alloc` where a failure is written through. -/
theorem wp_frameAlloc_failIf {α : Type} {g : Nat → PagerM α} {Q : α → Kernel → Prop}
    (hE : k.freeFrames = [] → E .nullPointer { k with exhausted := true })
    (hQ : ∀ f rest, k.free = f :: rest → f ≠ 0 → Wp (g f) (k.frameTaken rest) Q E) :
    Wp (do let f ← frameAlloc; failIf (f = 0) .nullPointer; g f) k Q E := by
  simp only [wp_bind, wp_frameAlloc, wp_failIf]
  refine ⟨fun h0 => ⟨fun _ => hE h0, fun h => absurd trivial h⟩, fun f rest hfree hf => ?_⟩
  exact ⟨fun h0 => absurd h0 hf, fun _ => hQ f rest hfree hf⟩

theorem wp_processInit {psType : ProcessType} {Q : Process → Kernel → Prop}
    (hE : k.freeFrames = [] → E .nullPointer { k with exhausted := true })
    (hQ : ∀ f rest, k.free = f :: rest → f ≠ 0 → ∀ k', k' = { k.frameTaken rest with
        incs := k.incs + 1 } →
      Q { psType, pagetable := { frame := f, pages2 := fun _ => none }, inc := k.incs } k') :
    Wp (processInit psType) k Q E := by
  unfold processInit pagetableInit
  rw [wp_bind]
  refine wp_frameAlloc_failIf hE fun f rest hfree hf => ?_
  simp only [wp_bind, wp_get, wp_modify, wp_pure]
  exact hQ f rest hfree hf _ rfl

theorem processInit_spec {psType : ProcessType} : Wp (processInit psType) k
    (fun p k' => Building M k p k' ∧ p.psType = psType ∧ p.regions = []) (fun _ _ => True) := by
  refine wp_processInit (fun _ => trivial) fun f rest hfree hf k' h' => ?_
  refine ⟨⟨?_, fun n => .inl ⟨rfl, rfl⟩, by simp, by rw [h']; rfl⟩, rfl, rfl⟩
  have hframes : Pagetable.frames { frame := f, pages2 := fun _ => none } = [f] := by
    unfold Pagetable.frames
    simp
  have hk' : k'.freeFrames = (k.frameTaken rest).freeFrames := by rw [h']; rfl
  rw [freeFrames_frameTaken hfree hf, hframes, hk']
  show Multiset.ofList _ + _ + 0 = _
  rw [add_zero, Multiset.coe_singleton, ← Multiset.singleton_add, add_comm]

/-- Looking an entry up keeps the account. -/
theorem Building.pagetableLookup {addr : Nat} (h : Building M k p k') :
    Wp (Sos.pagetableLookup p.pagetable addr) k' (fun pt k'' =>
      Building M k { p with pagetable := pt } k'' ∧
        (∃ t, pt.pages2 (offset1 (pageNo addr)) = some t))
      (fun _ _ => True) := by
  rw [wp_pagetableLookup]
  refine ⟨fun t ht => ⟨h, t, ht⟩, fun hnone => ⟨fun _ => trivial, fun f rest hfree hf => ⟨?_, ?_⟩⟩⟩
  · refine ⟨?_, fun n => ?_, h.direct, ?_⟩
    · have hfr := h.frames
      rw [freeFrames_frameTaken hfree hf] at hfr
      rw [← hfr]
      dsimp only
      rw [Pagetable.frames_addTable hnone, Multiset.cons_add, Multiset.add_cons, Multiset.cons_add]
    · dsimp only
      rw [Pagetable.entry_addTable hnone]
      exact h.entries n
    · rw [h.rest]
      rfl
  · exact ⟨_, Function.update_self ..⟩

theorem Building.setEntry {n : Page} {e : Pte} {t : Pagetable2} (h : Building M k p k')
    (ht : p.pagetable.pages2 (offset1 n) = some t) (he : e.swap ∧ e.elf) :
    Building M k { p with pagetable := p.pagetable.setEntry n e } k' := by
  refine ⟨?_, fun m => ?_, h.direct, h.rest⟩
  · dsimp only
    rw [Pagetable.frames_setEntry]
    exact h.frames
  · dsimp only
    rw [Pagetable.entry_setEntry ht]
    by_cases hm : m = n
    · subst hm
      rw [Function.update_self]
      exact .inr he
    · rw [Function.update_of_ne hm]
      exact h.entries m

theorem Building.setRegionOnElf {r : Region} {addr : Nat} (h : Building M k p k') :
    Wp (Sos.setRegionOnElf p.pagetable r addr) k'
      (fun pt k'' => Building M k { p with pagetable := pt } k'') (fun _ _ => True) := by
  have hloop : ∀ n size pt k₁, Building M k { p with pagetable := pt } k₁ →
      Wp (setRegionOnElfLoop r addr n size pt) k₁
        (fun pt k'' => Building M k { p with pagetable := pt } k'') (fun _ _ => True) := by
    intro n
    induction n with
    | zero => exact fun _ _ _ _ => wp_throw.mpr trivial
    | succ n ih =>
      intro size pt k₁ h₁
      rw [setRegionOnElfLoop, wp_ite]
      refine ⟨fun _ => ?_, fun _ => wp_pure.mpr h₁⟩
      rw [wp_bind]
      refine (h₁.pagetableLookup).imp fun pt' k₂ h₂ => ih _ _ _ ?_
      obtain ⟨h₂, t, ht⟩ := h₂
      exact h₂.setEntry ht ⟨rfl, rfl⟩
  unfold Sos.setRegionOnElf
  rw [wp_bind, wp_assert]
  exact ⟨fun _ => hloop _ _ _ _ h, fun _ => trivial⟩

theorem Building.addSegment {path : Path} {ph : ProgramHeader} (h : Building M k p k') :
    Wp (Sos.addSegment path p ph) k' (fun q k'' => Building M k q k'' ∧ q.psType = p.psType)
      (fun _ _ => True) := by
  unfold Sos.addSegment swapfileInit
  rw [wp_bind]
  refine wp_frameAlloc_failIf (fun _ => trivial) fun f rest hfree hf => ?_
  rw [wp_bind]
  refine modify_eq.imp fun _ k₁ h₁ => ?_
  rw [wp_pure]
  dsimp only
  rw [wp_bind]
  -- the new region goes in before the entries are written, which does not change the account
  have hreg : Building M k { p with regions := p.regions ++
      [{ type := .other, base := ph.vaddr, size := ph.memsz, rights := ph.flags,
         filesize := ph.filesz, elffile := some f }] } k₁ := by
    refine ⟨?_, h.entries, fun r hr hd => ?_, ?_⟩
    · have hfr := h.frames
      rw [freeFrames_frameTaken hfree hf] at hfr
      have hk₁ : k₁.freeFrames = (k'.frameTaken rest).freeFrames := by rw [h₁]; rfl
      rw [← hfr, hk₁]
      dsimp only
      rw [List.filterMap_append, ← Multiset.coe_add, Multiset.cons_add, Multiset.cons_add,
        ← add_assoc]
      show _ + ({f} : Multiset Nat) = _
      rw [add_comm, Multiset.singleton_add]
    · rcases List.mem_append.mp hr with hr | hr
      · exact h.direct r hr hd
      · rw [List.mem_singleton.mp hr] at hd
        simp at hd
    · rw [h₁, h.rest]
      rfl
  exact hreg.setRegionOnElf.imp fun pt k₂ h₂ => wp_pure.mpr ⟨h₂, rfl⟩

/-! ## Starting the process -/

theorem addBuiltinRegions_cases (p : Process) :
    addBuiltinRegions p = p ∨ ∃ heap stack : Region, heap.elffile = none ∧ stack.elffile = none ∧
      heap.mapDirectly = false ∧ stack.mapDirectly = false ∧
      addBuiltinRegions p = { p with regions := p.regions ++ [heap, stack] } := by
  unfold addBuiltinRegions
  dsimp only
  split
  · exact .inl rfl
  · exact .inr ⟨_, _, rfl, rfl, rfl, rfl, rfl⟩

/-- Heap and stack change nothing in the account. -/
theorem Building.withBuiltinRegions {fin : Option Path} (h : Building M k p k') :
    Building M k { addBuiltinRegions p with fin := fin } k' := by
  rcases addBuiltinRegions_cases p with he | ⟨heap, stack, h1, h2, h3, h4, he⟩
  · rw [he]
    exact ⟨h.frames, h.entries, h.direct, h.rest⟩
  · rw [he]
    refine ⟨?_, h.entries, fun r hr hd => ?_, h.rest⟩
    · dsimp only
      rw [List.filterMap_append]
      simp only [List.filterMap_cons, h1, h2, List.filterMap_nil, List.append_nil]
      exact h.frames
    · rcases List.mem_append.mp hr with hr | hr
      · exact h.direct r hr hd
      · simp only [List.mem_cons, List.not_mem_nil, or_false] at hr
        rcases hr with rfl | rfl
        · simp [h3] at hd
        · simp [h4] at hd

/-- **A process that has been built starts.** -/
theorem Building.run {fdout fderr fdin : Option Path} (h : Building M k p k')
    (hty : p.psType = .process) :
    Wp (do processPrepare2 pid p fdout fderr fdin; processRun pid) k' (fun _ k'' =>
      Quiet M b k k'') (fun _ _ => True) := by
  unfold processPrepare2 processExists
  simp only [wp_bind, wp_get, wp_assert, wp_pure]
  refine ⟨fun _ => ⟨fun hnew => ?_, fun _ => trivial⟩, fun _ => trivial⟩
  rw [if_neg (by rw [hty]; simp), wp_bind]
  refine modify_eq.imp fun _ k₁ h₁ => ?_
  refine (keeps_openStdFds idle_messaging pid fdout fderr k₁).mono (fun _ k₂ hidle => ?_)
    (fun _ _ _ => trivial)
  refine modify_eq.imp fun _ k₃ h₃ => ?_
  have hb : Building M k { addBuiltinRegions p with fin := fdin } k' := h.withBuiltinRegions
  generalize { addBuiltinRegions p with fin := fdin } = q at h₁ hb
  have hidle₃ : Idle { k₂ with mmu := Function.update k₂.mmu pid (fun _ => none) } k₃ := by
    rw [h₃]
    exact idle_updProcess (fun _ => rfl) (fun _ => rfl) (fun _ => ⟨rfl, rfl⟩)
  have hpool₃ : k₃.pool =
      { k₁.pool with mmu := Function.update k₁.pool.mmu pid (fun _ => none) } := by
    rw [hidle₃.pool]
    show { k₂.pool with mmu := Function.update k₂.pool.mmu pid (fun _ => none) } = _
    rw [hidle.pool]
  have hpool' : k'.pool = { k.pool with free := k'.freeFrames } := by
    rw [show k'.pool = Kernel.pool _ from congrArg _ h.rest]
    rfl
  have hdead : k.pool.live pid = false := by
    show (k.sosProcs pid).live = false
    have hs : k'.sosProcs = k.sosProcs := by rw [h.rest]
    rw [← hs]
    simpa [Slot.live] using hnew
  refine ⟨.single ?_, ?_, ?_⟩
  · rw [hpool₃, h₁, pool_setSlot, hpool']
    refine .spawn hdead ?_ ?_ ?_
    · show Multiset.ofList k'.freeFrames + Multiset.ofList q.pagetable.frames +
        Multiset.ofList (q.regions.filterMap Region.elffile) ≤ Multiset.ofList k.freeFrames
      rw [hb.frames]
    · exact hb.entries
    · rintro n ⟨r, hr, hd, hr'⟩
      obtain ⟨hheap, hfree⟩ := hb.direct r hr hd
      obtain ⟨a, ha, rfl⟩ := hr'.resolve_left hheap
      rw [← pageAlign_eq_addr ha]
      exact hfree a ha
  · rw [hidle₃.requests]
    show k₂.requests = _
    rw [hidle.requests, h₁]
    show k'.requests = _
    rw [h.rest]
  · rw [hidle₃.requestActive]
    show k₂.requestActive = _
    rw [hidle.requestActive, h₁]
    show k'.requestActive = _
    rw [h.rest]

theorem loadProcess_quiet {er : ElfloadRequest} {phs : List ProgramHeader} :
    Quiets M b (loadProcess er phs) k := by
  unfold loadProcess
  rw [Quiets, wp_bind]
  refine (processInit_spec (M := M)).imp fun p k₁ h₁ => ?_
  rw [wp_bind]
  refine (wp_foldlM (fun _ p k' => Building M k p k' ∧ p.psType = .process) ?_ phs p k₁
    ⟨h₁.1, h₁.2.1⟩).imp fun q k₂ h₂ => h₂.1.run h₂.2
  exact fun ph phs p k' h => h.1.addSegment.imp fun q k'' h' => ⟨h'.1, h'.2.trans h.2⟩

end Sos
