import Sos.Simulation.View

/-!
# Looking entries up

Every access to a page table entry goes through `pagetableLookup`, which may take a frame for a new
second level. `Grow k k'` says that this is all that happened between `k` and `k'`: no entry has
changed, and the frames taken have become page tables.
-/

namespace Sos

open Hoare

variable {k k' : Kernel} {E : Fault → Kernel → Prop} {pid : Pid} {addr : Nat} {n : Page}

/-- The second level for an address is made if it is not there. -/
theorem wp_pagetableLookup {pt : Pagetable} {Q : Pagetable → Kernel → Prop} :
    Wp (pagetableLookup pt addr) k Q E ↔
      (∀ t, pt.pages2 (offset1 (pageNo addr)) = some t → Q pt k) ∧
      (pt.pages2 (offset1 (pageNo addr)) = none →
        (k.freeFrames = [] → E .nullPointer { k with exhausted := true }) ∧
        (∀ f rest, k.free = f :: rest → f ≠ 0 →
          Q (pt.addTable (offset1 (pageNo addr)) f) (k.frameTaken rest))) := by
  unfold pagetableLookup
  split
  · next t h => simp [wp_pure, h]
  · next h =>
    simp only [wp_bind, wp_frameAlloc, wp_failIf, wp_pure, h, reduceCtorEq, false_implies,
      implies_true, true_and, not_true_eq_false, and_true, forall_const]
    refine and_congr_right fun _ => ?_
    constructor
    · intro hq f rest hf hne
      exact (hq f rest hf hne).2 hne
    · intro hq f rest hf hne
      exact ⟨fun he => absurd he hne, fun _ => hq f rest hf hne⟩

/-! ## Gaining page tables -/

/-- From `k` to `k'` processes have gained second level tables, and nothing else has changed. -/
structure Grow (k k' : Kernel) : Prop where
  /-- The steps do not depend on the record of resident pages, which the caller may be in the
  middle of changing. -/
  stepsWith : ∀ M b A, Pool.Steps M b { k.pool with alloced := A } { k'.pool with alloced := A }
  rest : k' = { k with
    free := k'.free, totalInUse := k'.totalInUse, sosProcs := k'.sosProcs }
  pcb : ∀ pid p, k.sosProcs pid = .pcb p →
    ∃ pt : Pagetable, pt.entry = p.pagetable.entry ∧
      k'.sosProcs pid = .pcb { p with pagetable := pt }
  other : ∀ pid, (k.sosProcs pid).live = false → k'.sosProcs pid = k.sosProcs pid
  table : ∀ pid n, k.HasTable pid n → k'.HasTable pid n

namespace Grow

theorem refl (k : Kernel) : Grow k k where
  stepsWith := fun _ _ _ => .refl
  rest := rfl
  pcb := fun _ p hp => ⟨p.pagetable, rfl, hp⟩
  other := fun _ _ => rfl
  table := fun _ _ h => h

variable (h : Grow k k')
include h

theorem steps (M : Set Nat) (b : Bool) : Pool.Steps M b k.pool k'.pool := by
  have hk : { k'.pool with alloced := k.pool.alloced } = k'.pool := by
    rw [h.rest]
    rfl
  have hsteps := h.stepsWith M b k.pool.alloced
  rw [hk] at hsteps
  exact hsteps

theorem pte : k'.pool.pte = k.pool.pte := by
  funext pid n
  show (k'.sosProcs pid).pte n = (k.sosProcs pid).pte n
  cases hs : k.sosProcs pid with
  | pcb p =>
    obtain ⟨pt, he, hp'⟩ := h.pcb pid p hs
    rw [hp']
    exact congrFun he n
  | null | placeholder => rw [h.other pid (by rw [hs]; rfl), hs]

theorem live : k'.pool.live = k.pool.live := by
  funext pid
  show (k'.sosProcs pid).live = (k.sosProcs pid).live
  cases hs : k.sosProcs pid with
  | pcb p =>
    obtain ⟨pt, he, hp'⟩ := h.pcb pid p hs
    rw [hp']
    rfl
  | null | placeholder => rw [h.other pid (by rw [hs]; rfl), hs]

theorem requests : k'.requests = k.requests := by rw [h.rest]
theorem requestActive : k'.requestActive = k.requestActive := by rw [h.rest]
theorem alloced : k'.alloced = k.alloced := by rw [h.rest]
theorem allocLimit : k'.allocLimit = k.allocLimit := by rw [h.rest]
theorem pinnedFrame : k'.pinnedFrame = k.pinnedFrame := by rw [h.rest]

end Grow

/-- A new second level is a frame that becomes a page table. -/
theorem grow_addTable {p : Process} {f : Nat} {rest : List Nat} (hp : k.sosProcs pid = .pcb p)
    (hnone : p.pagetable.pages2 (offset1 n) = none) (hfree : k.free = f :: rest) (hf : f ≠ 0) :
    Grow k ((k.frameTaken rest).setSlot pid
      (.pcb { p with pagetable := p.pagetable.addTable (offset1 n) f })) where
  stepsWith := fun M b A => by
    refine .single ?_
    have hlive : k.pool.live pid = true := by
      show (k.sosProcs pid).live = true
      rw [hp]
      rfl
    have hstep : Pool.Step M b { k.pool with alloced := A } _ :=
      .table hlive (mem_free_of_cons hfree hf)
    rw [pool_setSlot, pool_frameTaken hfree hf]
    dsimp only
    have hpte : (Slot.pcb { p with pagetable := p.pagetable.addTable (offset1 n) f }).pte =
        k.pool.pte pid := by
      funext m
      show (p.pagetable.addTable (offset1 n) f).entry m = (k.sosProcs pid).pte m
      rw [Pagetable.entry_addTable hnone, hp]
      rfl
    have htables : (Slot.pcb { p with pagetable := p.pagetable.addTable (offset1 n) f }).tables =
        f ::ₘ k.pool.tables pid := by
      show ((p.pagetable.addTable (offset1 n) f).frames : Multiset Nat) =
        f ::ₘ (k.sosProcs pid).tables
      rw [Pagetable.frames_addTable hnone, hp]
      rfl
    have helfs : (Slot.pcb { p with pagetable := p.pagetable.addTable (offset1 n) f }).elfs =
        k.pool.elfs pid := by
      show _ = (k.sosProcs pid).elfs
      rw [hp]
      rfl
    have hdirect : (Slot.pcb { p with pagetable := p.pagetable.addTable (offset1 n) f }).direct =
        k.pool.direct pid := by
      show _ = (k.sosProcs pid).direct
      rw [hp]
      rfl
    have hl : (Slot.pcb { p with pagetable := p.pagetable.addTable (offset1 n) f }).live =
        k.pool.live pid := hlive.symm
    rw [hpte, htables, helfs, hdirect, hl]
    simp only [Function.update_eq_self]
    exact hstep
  rest := rfl
  pcb := fun pid' q hq => by
    by_cases hpid : pid' = pid
    · subst hpid
      rw [hp] at hq
      injection hq with hq
      subst hq
      exact ⟨_, Pagetable.entry_addTable hnone, setSlot_self⟩
    · exact ⟨q.pagetable, rfl, (setSlot_of_ne hpid).trans hq⟩
  other := fun pid' hl => by
    refine setSlot_of_ne fun hpid => ?_
    rw [hpid, hp] at hl
    simp at hl
  table := fun pid' m hm => by
    obtain ⟨q, t, hq, ht⟩ := hm
    by_cases hpid : pid' = pid
    · subst hpid
      rw [hp] at hq
      injection hq with hq
      subst hq
      have hne : offset1 m ≠ offset1 n := fun he => by rw [he, hnone] at ht; simp at ht
      refine ⟨_, t, setSlot_self, ?_⟩
      unfold Pagetable.addTable
      dsimp only
      rw [Function.update_of_ne hne]
      exact ht
    · exact ⟨q, t, (setSlot_of_ne hpid).trans hq, ht⟩

/-! ## Looking up by process -/

theorem setSlot_pcb_self {p : Process} (hp : k.sosProcs pid = .pcb p) :
    k.setSlot pid (.pcb p) = k := by
  unfold Kernel.setSlot
  rw [← hp, Function.update_eq_self]

/-- What a look-up leaves: the state as it was, or with the second level that was missing. -/
inductive Looked (pid : Pid) (addr : Nat) (k : Kernel) : Kernel → Prop
  | found : k.HasTable pid (pageNo addr) → Looked pid addr k k
  | made {p f rest} : k.sosProcs pid = .pcb p →
      p.pagetable.pages2 (offset1 (pageNo addr)) = none → k.free = f :: rest → f ≠ 0 →
      Looked pid addr k ((k.frameTaken rest).setSlot pid
        (.pcb { p with pagetable := p.pagetable.addTable (offset1 (pageNo addr)) f }))

theorem Looked.grow (h : Looked pid addr k k') : Grow k k' := by
  cases h with
  | found => exact .refl k
  | made hp hnone hfree hf => exact grow_addTable hp hnone hfree hf

theorem Looked.table (h : Looked pid addr k k') : k'.HasTable pid (pageNo addr) := by
  cases h with
  | found ht => exact ht
  | made hp hnone hfree hf => exact ⟨_, _, setSlot_self, Function.update_self ..⟩

section Lookup

variable (hnull : k.sosProcs pid = .null → E .nullProcess k)
  (hplace : k.sosProcs pid = .placeholder → E .placeholder k)
  (hfull : k.freeFrames = [] → ¬ k.HasTable pid (pageNo addr) → k.pool.live pid = true →
    E .nullPointer { k with exhausted := true })
include hnull hplace hfull

/-- `lookupEntry` gives the entry as it is; it faults without the process, or when a second level
is needed and there is no frame for it. -/
theorem wp_lookupEntry_looked {Q : Pte → Kernel → Prop}
    (hQ : ∀ k', Looked pid addr k k' → Q (k.pool.pte pid (pageNo addr)) k') :
    Wp (lookupEntry pid addr) k Q E := by
  unfold lookupEntry
  rw [wp_bind, wp_derefProcess]
  refine ⟨hnull, hplace, fun p hp => ?_⟩
  have hpte : k.pool.pte pid = p.pagetable.entry := by
    show (k.sosProcs pid).pte = _
    rw [hp]
    rfl
  simp only [wp_bind, wp_pagetableLookup, wp_modify, wp_pure]
  refine ⟨fun t ht => ?_, fun hnone => ⟨fun hf => ?_, fun f rest hfree hf => ?_⟩⟩
  · rw [updProcess_of_pcb hp, setSlot_pcb_self hp, ← hpte]
    exact hQ k (.found ⟨p, t, hp, ht⟩)
  · refine hfull hf ?_ ?_
    · rintro ⟨q, t, hq, ht⟩
      rw [hp] at hq
      injection hq with hq
      subst hq
      simp [hnone] at ht
    · show (k.sosProcs pid).live = true
      rw [hp]
      rfl
  · rw [updProcess_of_pcb (k := k.frameTaken rest) hp, Pagetable.entry_addTable hnone, ← hpte]
    exact hQ _ (.made hp hnone hfree hf)

theorem wp_lookupEntry {Q : Pte → Kernel → Prop}
    (hQ : ∀ k', Grow k k' → k'.HasTable pid (pageNo addr) →
      Q (k.pool.pte pid (pageNo addr)) k') :
    Wp (lookupEntry pid addr) k Q E :=
  wp_lookupEntry_looked hnull hplace hfull fun k' h => hQ k' h.grow h.table

/-- `prepareDataIn` and `prepareDataOut` look an entry up. -/
theorem wp_prepareData_looked {Q : Unit → Kernel → Prop}
    (halign : pageOffset addr ≠ 0 → E (.assertion .prepareDataAligned) k)
    (hQ : ∀ k', Looked pid addr k k' → Q () k') :
    Wp (prepareData pid addr) k Q E := by
  unfold prepareData
  rw [wp_bind, wp_assert]
  refine ⟨fun _ => ?_, fun h => halign (by simpa using h)⟩
  rw [wp_discard]
  exact wp_lookupEntry_looked hnull hplace hfull hQ

theorem wp_prepareData {Q : Unit → Kernel → Prop}
    (halign : pageOffset addr ≠ 0 → E (.assertion .prepareDataAligned) k)
    (hQ : ∀ k', Grow k k' → k'.HasTable pid (pageNo addr) → Q () k') :
    Wp (prepareData pid addr) k Q E :=
  wp_prepareData_looked hnull hplace hfull halign fun k' h => hQ k' h.grow h.table

end Lookup

/-- With the second level in place a look-up changes nothing. -/
theorem wp_lookupEntry_of_hasTable {Q : Pte → Kernel → Prop} (h : k.HasTable pid (pageNo addr)) :
    Wp (lookupEntry pid addr) k Q E ↔ Q (k.pool.pte pid (pageNo addr)) k := by
  obtain ⟨p, t, hp, ht⟩ := h
  have hpte : k.pool.pte pid = p.pagetable.entry := by
    show (k.sosProcs pid).pte = _
    rw [hp]
    rfl
  unfold lookupEntry
  simp only [wp_bind, wp_derefProcess, wp_pagetableLookup, wp_modify, wp_pure, hp, reduceCtorEq,
    false_implies, true_and, Slot.pcb.injEq, forall_eq', ht, Option.some.injEq,
    updProcess_of_pcb hp, setSlot_pcb_self hp, hpte, and_true]

theorem wp_prepareData_of_hasTable {Q : Unit → Kernel → Prop} (h : k.HasTable pid (pageNo addr)) :
    Wp (prepareData pid addr) k Q E ↔
      (pageOffset addr = 0 → Q () k) ∧
      (pageOffset addr ≠ 0 → E (.assertion .prepareDataAligned) k) := by
  unfold prepareData
  rw [wp_bind, wp_assert, wp_discard, wp_lookupEntry_of_hasTable h]
  simp

end Sos
